import Mathlib.Data.List.Perm.Basic
import LexicalScope.Chain.Bindings
import LexicalScope.Chain.Names
import LexicalScope.Proofs.Chain.Resolve
import LexicalScope.Proofs.Visible.Firsts

/-!
# What the visible walk shows of a chain

The walk reads the frames from the innermost one outwards and the entries of each
frame in some order.  Whatever that order is, the walk shows one entry for every key
that some frame holds, and it is the entry of the frame that the key resolves to.

The proof goes down the stack frame by frame.  Its invariant says that the keys seen so
far are exactly those held by the frames above, so that a frame contributes its entries
whose keys no frame above holds.

Main results:

- Theorem {lit}`Chain.firsts_runs`: the frames that the shown keys resolve to, in order, are
  determined by how many uncovered keys each frame has.
- Theorem {lit}`Chain.visible_walk`: what the walk shows, for chains of bindings and for
  chains of names.
-/

namespace LexicalScope
namespace Chain

variable {ε κ : Type} [Entry ε κ] [BEq κ]

/-! ## Enumerations and uncovered keys -/

/-- Runs that enumerate the frames from the innermost one, each frame in any order. -/
def Enumerates (c : Chain ε) (runs : List (List ε)) : Prop :=
  List.Forall₂ List.Perm runs (c.stack.fromTop.map Frame.entries)

/-- How many keys a frame holds that no frame above it holds. -/
def uncovered (c : Chain ε) (i : Nat) : Nat :=
  match c.stack.frame? i with
  | some frame => frame.entries.countP fun e => !c.heldFrom (i + 1) (Entry.key e)
  | none => 0

/-- The indexes of the frames below {lit}`n`, innermost first, each once for each uncovered key. -/
def uncoveredIndexes (c : Chain ε) : Nat → List Nat
  | 0 => []
  | n + 1 => List.replicate (c.uncovered n) n ++ uncoveredIndexes c n

/-- The listed indexes are below the bound. -/
theorem lt_of_mem_uncoveredIndexes (c : Chain ε) {n i : Nat} (h : i ∈ c.uncoveredIndexes n) :
    i < n := by
  induction n with
  | zero => cases h
  | succ n ih =>
      rcases List.mem_append.mp h with hi | hi
      · rw [List.eq_of_mem_replicate hi]
        exact Nat.lt_succ_self n
      · exact Nat.lt_succ_of_lt (ih hi)

/-- The listed indexes never increase. -/
theorem pairwise_uncoveredIndexes (c : Chain ε) (n : Nat) :
    (c.uncoveredIndexes n).Pairwise (· ≥ ·) := by
  induction n with
  | zero => exact List.Pairwise.nil
  | succ n ih =>
      refine List.pairwise_append.mpr ⟨List.pairwise_replicate.mpr (Or.inr (Nat.le_refl n)), ih, ?_⟩
      intro i hi j hj
      rw [List.eq_of_mem_replicate hi]
      exact Nat.le_of_lt (c.lt_of_mem_uncoveredIndexes hj)

/-- An index is listed once for each uncovered key of its frame. -/
theorem count_uncoveredIndexes (c : Chain ε) (n i : Nat) :
    (c.uncoveredIndexes n).count i = if i < n then c.uncovered i else 0 := by
  induction n with
  | zero => rfl
  | succ n ih =>
      rw [uncoveredIndexes, List.count_append, List.count_replicate, ih]
      by_cases hin : i = n
      · subst hin
        simp
      · have hne : (n == i) = false := by simpa using fun h => hin h.symm
        by_cases hlt : i < n
        · simp [hne, hlt, Nat.lt_succ_of_lt hlt]
        · simp [hne, hlt, show ¬i < n + 1 by omega]

/-! ## Down the stack -/

variable [EquivBEq κ]

/-- The entries of a frame have distinct keys in every order. -/
theorem distinct_of_perm {run : List ε} {frame : Frame ε} (h : run.Perm frame.entries) :
    Entry.Distinct run := by
  refine ((h.map Entry.key).pairwise_iff ?_).mpr frame.distinct
  intro a b hab
  rw [BEq.comm, hab]

/--
The frames that the shown keys resolve to are the same for every enumeration of the
first {lit}`n` frames, if the keys seen before are those of the frames above.
-/
theorem firsts_runs (c : Chain ε) {n : Nat} (hn : n ≤ c.depth) {runs : List (List ε)}
    (hruns : List.Forall₂ List.Perm runs ((c.stack.below n).map Frame.entries)) {seen : List κ}
    (hseen : ∀ k, seen.any (· == k) = c.heldFrom n k) :
    (Visible.firsts seen runs.flatten).map (fun e => c.resolve (Entry.key e)) =
        (c.uncoveredIndexes n).map some ∧
      ∀ e ∈ Visible.firsts seen runs.flatten, ∃ i frame,
        c.resolve (Entry.key e) = some i ∧ c.stack.frame? i = some frame ∧ e ∈ frame.entries := by
  induction n generalizing runs seen with
  | zero =>
      rw [Stack.below_zero, List.map_nil, List.forall₂_nil_right_iff] at hruns
      subst hruns
      exact ⟨rfl, fun e he => by cases he⟩
  | succ n ih =>
      rcases c.stack.exists_frame? (i := n) hn with ⟨frame, hframe⟩
      rw [Stack.below_succ, hframe, Option.toList_some, List.singleton_append, List.map_cons,
        List.forall₂_cons_right_iff] at hruns
      rcases hruns with ⟨run, rest, hrun, hrest, rfl⟩
      have hkeys : ∀ k, (run.map Entry.key ++ seen).any (· == k) = c.heldFrom n k := by
        intro k
        rw [List.any_append, hseen, heldFrom_eq_or c hframe, Frame.contains, List.any_map,
          hrun.any_eq]
        rfl
      -- What this frame contributes resolves to it, since no frame above holds the key.
      have hhere : ∀ e ∈ run.filter (fun e => !Visible.isSeen seen e),
          e ∈ frame.entries ∧ c.resolve (Entry.key e) = some n := by
        intro e he
        rcases List.mem_filter.mp he with ⟨hmem, hnew⟩
        have hframeMem := hrun.mem_iff.mp hmem
        refine ⟨hframeMem, (c.resolve_eq_some_iff _ n).mpr ⟨?_, ?_⟩⟩
        · rw [hasAt, hframe]
          exact (frame.contains_eq_true_iff _).mpr ⟨e, hframeMem, BEq.rfl⟩
        · rw [← hseen]
          simpa [Visible.isSeen] using hnew
      have hsize : (run.filter (fun e => !Visible.isSeen seen e)).length = c.uncovered n := by
        rw [← List.countP_eq_length_filter, hrun.countP_eq, uncovered, hframe]
        exact List.countP_congr fun e _ => by rw [Visible.isSeen, hseen]
      have hbelow := ih (by omega) hrest hkeys
      rw [List.flatten_cons, Visible.firsts_append seen (distinct_of_perm hrun)]
      constructor
      · rw [List.map_append, hbelow.1, uncoveredIndexes, List.map_append, List.map_replicate, ← hsize]
        congr 1
        exact List.map_eq_replicate_iff.mpr fun e he => (hhere e he).2
      · intro e he
        rcases List.mem_append.mp he with he | he
        · exact ⟨n, frame, (hhere e he).2, hframe, (hhere e he).1⟩
        · exact hbelow.2 e he

/-! ## What the walk shows -/

/-- What the walk over some runs shows of a chain that the runs enumerate. -/
structure Shows (c : Chain ε) (runs : List (List ε)) : Prop where
  /-- No key is shown twice. -/
  distinct : Entry.Distinct (Visible.ofRuns runs).drain.1
  /-- The keys that are shown are those that some frame holds. -/
  any_key : ∀ k, (Visible.ofRuns runs).drain.1.any (fun e => Entry.key e == k) = c.has k
  /-- An entry that is shown is stored in the frame that its key resolves to. -/
  stored : ∀ e ∈ (Visible.ofRuns runs).drain.1, ∃ i frame,
    c.resolve (Entry.key e) = some i ∧ c.stack.frame? i = some frame ∧
      frame.find? (Entry.key e) = some e
  /-- An entry that is shown is the one that a look-up of its key answers. -/
  lookup : ∀ e ∈ (Visible.ofRuns runs).drain.1, c.lookup (Entry.key e) = .ok e
  /-- The indexes that the shown keys resolve to never increase. -/
  descending : ∃ indexes : List Nat,
    (Visible.ofRuns runs).drain.1.map (fun e => c.resolve (Entry.key e)) = indexes.map some ∧
      indexes.Pairwise (· ≥ ·)
  /-- A frame contributes as many entries as it holds keys that no frame above it holds. -/
  contribution : ∀ i frame, c.stack.frame? i = some frame →
    (Visible.ofRuns runs).drain.1.countP (fun e => c.resolve (Entry.key e) == some i) =
      frame.entries.countP fun e => !c.heldFrom (i + 1) (Entry.key e)
  /-- The first steps of the walk show the first of these entries. -/
  take : ∀ n, ((Visible.ofRuns runs).take n).1 = (Visible.ofRuns runs).drain.1.take n
  /-- The indexes that the first keys resolve to do not depend on the enumeration. -/
  frames : ∀ n, ((Visible.ofRuns runs).take n).1.map (fun e => c.resolve (Entry.key e)) =
    (c.visibleFrames n).map some
  /-- Nor does it matter for the whole walk which entries it shows. -/
  perm : (Visible.ofRuns runs).drain.1.Perm c.visibleEntries

omit [EquivBEq κ] in
/-- Entries whose keys resolve are all located, at the indexes that their keys resolve to. -/
theorem map_located (c : Chain ε) {entries : List ε}
    (h : ∀ e ∈ entries, ∃ i, c.resolve (Entry.key e) = some i) :
    (c.located entries).map (fun shown => (shown.2, some shown.1)) =
      entries.map fun e => (e, c.resolve (Entry.key e)) := by
  induction entries with
  | nil => rfl
  | cons e rest ih =>
      rcases h e List.mem_cons_self with ⟨i, hi⟩
      have hrest := ih fun e' he' => h e' (List.mem_cons_of_mem _ he')
      rw [located] at hrest ⊢
      simp only [List.filterMap_cons, hi, Option.map_some, List.map_cons, hrest]

/-- The whole walk shows the frames of the uncovered keys, and entries that these frames store. -/
theorem drain_of_enumerates {c : Chain ε} {runs : List (List ε)} (h : c.Enumerates runs) :
    (Visible.ofRuns runs : Visible ε).drain.1.map (fun e => c.resolve (Entry.key e)) =
        (c.uncoveredIndexes c.depth).map some ∧
      ∀ e ∈ (Visible.ofRuns runs : Visible ε).drain.1, ∃ i frame,
        c.resolve (Entry.key e) = some i ∧ c.stack.frame? i = some frame ∧ e ∈ frame.entries := by
  rw [Visible.drain_eq]
  exact c.firsts_runs (Nat.le_refl _) h fun k => (c.heldFrom_of_depth_le (Nat.le_refl _) k).symm

omit [EquivBEq κ] in
/-- The frames themselves are an enumeration of the chain. -/
theorem enumerates_self (c : Chain ε) : c.Enumerates (c.stack.fromTop.map Frame.entries) :=
  List.forall₂_same.mpr fun run _ => List.Perm.refl run

omit [EquivBEq κ] in
/-- The chain has a key if and only if an entry of the runs has it. -/
theorem has_eq_any_runs {c : Chain ε} {runs : List (List ε)} (h : c.Enumerates runs) (k : κ) :
    c.has k = runs.flatten.any fun e => Entry.key e == k := by
  rw [has, Stack.anyBelow_eq]
  change c.stack.fromTop.any _ = _
  unfold Enumerates at h
  generalize c.stack.fromTop = frames at h
  induction frames generalizing runs with
  | nil =>
      rw [List.map_nil, List.forall₂_nil_right_iff] at h
      rw [h]
      rfl
  | cons frame frames ih =>
      rw [List.map_cons, List.forall₂_cons_right_iff] at h
      rcases h with ⟨run, rest, hrun, hrest, rfl⟩
      rw [List.any_cons, ih hrest, List.flatten_cons, List.any_append, hrun.any_eq]
      rfl

/-- An entry that is shown is stored in the frame that its key resolves to. -/
theorem exists_stored_of_mem_drain {c : Chain ε} {runs : List (List ε)} (h : c.Enumerates runs)
    {e : ε} (he : e ∈ (Visible.ofRuns runs : Visible ε).drain.1) : ∃ i frame,
      c.resolve (Entry.key e) = some i ∧ c.stack.frame? i = some frame ∧
        frame.find? (Entry.key e) = some e := by
  rcases (drain_of_enumerates h).2 e he with ⟨i, frame, hresolve, hframe, hmem⟩
  exact ⟨i, frame, hresolve, hframe, frame.find?_key_of_mem hmem⟩

/-- The keys that are shown are those that the chain has. -/
theorem any_drain {c : Chain ε} {runs : List (List ε)} (h : c.Enumerates runs) (k : κ) :
    (Visible.ofRuns runs : Visible ε).drain.1.any (fun e => Entry.key e == k) = c.has k := by
  have hany := Visible.any_firsts [] runs.flatten k
  rw [List.any_nil, Bool.or_false, Bool.or_false] at hany
  rw [Visible.drain_eq, has_eq_any_runs h]
  exact hany

/-- The walk shows the entry that is stored in the frame that its key resolves to. -/
theorem mem_drain_of_stored {c : Chain ε} {runs : List (List ε)} (h : c.Enumerates runs) {e : ε}
    {i : Nat} {frame : Frame ε} (hresolve : c.resolve (Entry.key e) = some i)
    (hframe : c.stack.frame? i = some frame) (hfind : frame.find? (Entry.key e) = some e) :
    e ∈ (Visible.ofRuns runs : Visible ε).drain.1 := by
  have hany := any_drain h (Entry.key e)
  rw [c.has_of_resolve hresolve, List.any_eq_true] at hany
  rcases hany with ⟨e', hmem, hkey⟩
  -- Both spellings resolve to the same frame, which answers them with the same entry.
  rcases exists_stored_of_mem_drain h hmem with ⟨i', frame', hresolve', hframe', hfind'⟩
  rw [c.resolve_congr hkey, hresolve, Option.some.injEq] at hresolve'
  subst hresolve'
  rw [hframe, Option.some.injEq] at hframe'
  subst hframe'
  rw [frame.find?_congr hkey, hfind, Option.some.injEq] at hfind'
  rw [hfind']
  exact hmem

/-- Every enumeration shows the same entries, but for their order. -/
theorem drain_perm_visibleEntries {c : Chain ε} {runs : List (List ε)} (h : c.Enumerates runs) :
    (Visible.ofRuns runs : Visible ε).drain.1.Perm c.visibleEntries := by
  have hnodup : ∀ v : Visible ε, v.drain.1.Nodup := fun v => by
    rw [Visible.drain_eq]
    exact Entry.nodup_of_distinct (Visible.distinct_firsts _ _)
  apply (List.perm_ext_iff_of_nodup (hnodup _) (hnodup _)).mpr
  intro e
  constructor
  · intro he
    rcases exists_stored_of_mem_drain h he with ⟨i, frame, hresolve, hframe, hfind⟩
    exact mem_drain_of_stored c.enumerates_self hresolve hframe hfind
  · intro he
    rcases exists_stored_of_mem_drain c.enumerates_self he with ⟨i, frame, hresolve, hframe, hfind⟩
    exact mem_drain_of_stored h hresolve hframe hfind

/-- The indexes that the first keys resolve to, which do not depend on the enumeration. -/
theorem resolve_take {c : Chain ε} {runs : List (List ε)} (h : c.Enumerates runs) (n : Nat) :
    ((Visible.ofRuns runs : Visible ε).take n).1.map (fun e => c.resolve (Entry.key e)) =
      ((c.uncoveredIndexes c.depth).take n).map some := by
  rw [Visible.take_eq, ← Visible.drain_eq, List.map_take, (drain_of_enumerates h).1, List.map_take]

/-- Every key that the chain's own walk shows resolves to some frame. -/
theorem exists_resolve_of_mem_visibleEntries (c : Chain ε) {e : ε} (he : e ∈ c.visibleEntries) :
    ∃ i, c.resolve (Entry.key e) = some i := by
  rcases exists_stored_of_mem_drain c.enumerates_self he with ⟨i, _, hresolve, _⟩
  exact ⟨i, hresolve⟩

/-- The frames listed for the first keys are those that the keys of the chain's own walk
resolve to. -/
theorem map_some_visibleFrames (c : Chain ε) (n : Nat) :
    (c.visibleFrames n).map some =
      (c.visible.take n).1.map fun e => c.resolve (Entry.key e) := by
  have hresolves : ∀ e ∈ (c.visible.take n).1, ∃ i, c.resolve (Entry.key e) = some i := by
    intro e he
    rw [Visible.take_eq, ← Visible.drain_eq] at he
    exact c.exists_resolve_of_mem_visibleEntries (List.mem_of_mem_take he)
  have hlocated := congrArg (List.map Prod.snd) (c.map_located hresolves)
  simpa only [visibleFrames, List.map_map, Function.comp_def] using hlocated

/-- The frames listed for the first keys are determined by the numbers of uncovered keys. -/
theorem visibleFrames_eq (c : Chain ε) (n : Nat) :
    c.visibleFrames n = (c.uncoveredIndexes c.depth).take n := by
  have hsome := (c.map_some_visibleFrames n).trans (resolve_take c.enumerates_self n)
  exact List.map_injective_iff.mpr (fun _ _ hij => Option.some.inj hij) hsome

/-- So many of the shown keys resolve to a frame as it has uncovered keys. -/
theorem countP_resolve_drain {c : Chain ε} {runs : List (List ε)} (h : c.Enumerates runs) {i : Nat}
    (hi : i < c.depth) :
    (Visible.ofRuns runs : Visible ε).drain.1.countP
      (fun e => c.resolve (Entry.key e) == some i) = c.uncovered i := by
  calc (Visible.ofRuns runs : Visible ε).drain.1.countP (fun e => c.resolve (Entry.key e) == some i)
      = ((Visible.ofRuns runs : Visible ε).drain.1.map fun e =>
          c.resolve (Entry.key e)).count (some i) := by
        rw [List.count, List.countP_map]
        rfl
    _ = ((c.uncoveredIndexes c.depth).map some).count (some i) := by rw [(drain_of_enumerates h).1]
    _ = (c.uncoveredIndexes c.depth).count i := by
        rw [List.count, List.countP_map, List.count]
        exact List.countP_congr fun j _ => by simp
    _ = c.uncovered i := by rw [count_uncoveredIndexes, if_pos hi]

/-- The walk over every enumeration shows the chain as described. -/
theorem shows_of_enumerates {c : Chain ε} {runs : List (List ε)} (h : c.Enumerates runs) :
    c.Shows runs := by
  have hfirsts := Visible.drain_eq (Visible.ofRuns runs : Visible ε)
  constructor
  case distinct =>
    rw [hfirsts]
    exact Visible.distinct_firsts _ _
  case any_key => exact any_drain h
  case stored => exact fun e he => exists_stored_of_mem_drain h he
  case lookup =>
    intro e he
    have hstored := exists_stored_of_mem_drain h he
    exact (c.lookup_eq_ok_iff _ e).mpr hstored
  case descending =>
    exact ⟨_, (drain_of_enumerates h).1, c.pairwise_uncoveredIndexes c.depth⟩
  case contribution =>
    intro i frame hframe
    have hlt : i < c.depth := Stack.lt_depth_of_frame? hframe
    rw [countP_resolve_drain h hlt, uncovered, hframe]
  case take =>
    intro n
    rw [Visible.take_eq, hfirsts]
  case frames =>
    intro n
    rw [visibleFrames_eq, resolve_take h]
  case perm => exact drain_perm_visibleEntries h

/-! ## The groups -/

/-- Groups of neighbours are flattened to what was grouped. -/
theorem flatten_groupNeighbours {α : Type} (items : List (Nat × α)) :
    (groupNeighbours items).flatMap (fun g => g.2.map fun item => (g.1, item)) = items := by
  induction items with
  | nil => rfl
  | cons item rest ih =>
      rcases item with ⟨tag, item⟩
      rw [groupNeighbours]
      cases hgroups : groupNeighbours rest with
      | nil =>
          rw [hgroups] at ih
          rw [← ih]
          rfl
      | cons group groups =>
          rcases group with ⟨next, items⟩
          rw [hgroups] at ih
          by_cases htag : tag = next
          · subst htag
            rw [← ih]
            simp
          · rw [← ih]
            simp [htag]

omit [BEq κ] [EquivBEq κ] in
/-- Sorting only reorders the entries. -/
theorem sorted_perm [Ord κ] (entries : List ε) : (Entry.sorted entries).Perm entries :=
  List.mergeSort_perm _ _

/-- The groups list what the walk shows, each entry along with what its key resolves to. -/
theorem flatten_visibleGroups [Ord κ] {c : Chain ε} {runs : List (List ε)}
    (h : c.Enumerates runs) :
    (c.visibleGroups.flatMap fun g => g.2.map fun e => (e, some g.1)).Perm
      ((Visible.ofRuns runs).drain.1.map fun e => (e, c.resolve (Entry.key e))) := by
  -- Sorting each group only reorders it; without that, the groups flatten to what was grouped.
  have hsorted : (c.visibleGroups.flatMap fun g => g.2.map fun e => (e, some g.1)).Perm
      ((groupNeighbours (c.located c.visibleEntries)).flatMap fun g =>
        g.2.map fun e => (e, some g.1)) := by
    rw [visibleGroups, List.flatMap_map]
    exact List.Perm.flatMap_left _ fun g _ => (sorted_perm g.2).map _
  have hflat : ((groupNeighbours (c.located c.visibleEntries)).flatMap fun g =>
        g.2.map fun e => (e, some g.1)) =
      c.visibleEntries.map fun e => (e, c.resolve (Entry.key e)) := by
    rw [← c.map_located fun e he => c.exists_resolve_of_mem_visibleEntries he]
    conv_rhs => rw [← flatten_groupNeighbours (c.located c.visibleEntries)]
    simp only [List.map_flatMap, List.map_map, Function.comp_def]
  rw [hflat] at hsorted
  exact hsorted.trans ((drain_perm_visibleEntries h).map _).symm

/-! ## Bindings and names -/

/--
For every enumeration of its frames, the walk over a chain of bindings shows each visible
binding once, in an order of frames that does not depend on the enumeration, with the
value that a look-up answers; the listing of the keys is that of the bindings without the
values.  The walk over a chain of names shows each visible name in the same way.
-/
theorem visible_walk {κ ν : Type} [BEq κ] [EquivBEq κ] [Ord κ] [BEq ν] :
    (∀ (c : Bindings κ ν) (runs : List (List (Binding κ ν))), c.Enumerates runs →
      c.Shows runs ∧
      (∀ b ∈ (Visible.ofRuns runs).drain.1, c.get b.key = .ok b.value) ∧
      c.keyGroups = c.visibleGroups.map (fun g => (g.1, g.2.map Binding.key)) ∧
      (c.keyGroups.flatMap fun g => g.2.map fun k => (k, some g.1)).Perm
        (((Visible.ofRuns runs).drain.1.map Binding.key).map fun k => (k, c.resolve k))) ∧
    (∀ (c : Names κ) (runs : List (List (Member κ))), c.Enumerates runs →
      c.Shows runs ∧
      ∀ m ∈ (Visible.ofRuns runs).drain.1, c.get m.key = .ok m.key) := by
  constructor
  · intro c runs h
    have hshows := shows_of_enumerates h
    refine ⟨hshows, fun b hb => ?_, rfl, ?_⟩
    · have hlookup : c.lookup b.key = .ok b := hshows.lookup b hb
      rw [Bindings.get, hlookup]
      rfl
    · have hgroups := (flatten_visibleGroups h).map fun shown => (shown.1.key, shown.2)
      simp only [List.map_flatMap, List.map_map, Function.comp_def] at hgroups
      rw [Bindings.keyGroups, List.flatMap_map]
      simp only [List.map_map, Function.comp_def]
      exact hgroups
  · intro c runs h
    have hshows := shows_of_enumerates h
    refine ⟨hshows, fun m hm => ?_⟩
    have hlookup : c.lookup m.key = .ok m := hshows.lookup m hm
    rw [Names.get, hlookup]
    rfl

/-- Three frames with overlapping keys, two of them not read in the order of insertion. -/
theorem visible_walk_shadowed :
    let root : Frame (Binding Nat Bool) := .ofList .standard [⟨1, false⟩, ⟨2, false⟩, ⟨3, false⟩]
    let c : Bindings Nat Bool := ((Chain.ofRoot root).pushFrame
      (.ofList .standard [⟨2, true⟩, ⟨4, false⟩])).pushFrame (.ofList .standard [⟨4, true⟩])
    let runs : List (List (Binding Nat Bool)) :=
      [[⟨4, true⟩], [⟨4, false⟩, ⟨2, true⟩], [⟨3, false⟩, ⟨1, false⟩, ⟨2, false⟩]]
    c.Enumerates runs ∧ c.Shows runs ∧
      (Visible.ofRuns runs).drain.1.map (fun b => (b.key, b.value)) =
        [(4, true), (2, true), (3, false), (1, false)] := by
  intro root c runs
  have hruns : c.Enumerates runs := by
    refine .cons (List.Perm.refl _) (.cons (List.Perm.swap _ _ []) (.cons ?_ .nil))
    exact (List.Perm.swap _ _ [_]).trans ((List.Perm.swap _ _ []).cons _)
  exact ⟨hruns, (visible_walk.1 c runs hruns).1, by decide +kernel⟩

end Chain
end LexicalScope
