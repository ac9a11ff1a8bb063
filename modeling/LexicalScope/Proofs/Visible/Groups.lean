import Mathlib.Data.List.Pairwise
import LexicalScope.Proofs.Chain.Related
import LexicalScope.Proofs.Frame.Alike
import LexicalScope.Proofs.Visible.Walk

/-!
# The visible groups

The visible walk shows frame by frame, from the innermost one outwards, the entries whose
keys no frame above holds.  So the groups of visible entries are the frames that have such
entries, each with its entries sorted by key.

The sorting makes the groups independent of the order in which the entries of a frame came
in: chains whose frames are alike have groups with the same indexes, and group by group
their entries are related one by one.

Main results:

- Theorem {lit}`Chain.visibleGroups_eq`: which groups there are.
- Theorem {lit}`Entry.sorted_matched`: sorting brings entries with equal keys together.
- Theorems {lit}`Chain.visibleGroups_alike` and {lit}`Chain.visibleFrames_alike`: what chains
  with alike frames show.
-/

namespace LexicalScope

/-! ## Grouping neighbours -/

section Neighbours

variable {α : Type}

/-- The first group has the tag of the first item. -/
theorem exists_groupNeighbours_cons (tag : Nat) (item : α) (rest : List (Nat × α)) :
    ∃ items groups, groupNeighbours ((tag, item) :: rest) = (tag, items) :: groups := by
  rw [groupNeighbours]
  cases groupNeighbours rest with
  | nil => exact ⟨_, _, rfl⟩
  | cons group groups =>
      by_cases htag : tag = group.1
      · exact ⟨item :: group.2, groups, by simp [htag]⟩
      · exact ⟨[item], group :: groups, by simp [htag]⟩

/-- Items with one tag form a group if all that follow have other tags. -/
theorem groupNeighbours_append {tag : Nat} {items : List α} (hitems : items ≠ [])
    {rest : List (Nat × α)} (hrest : ∀ next ∈ rest, tag ≠ next.1) :
    groupNeighbours (items.map (fun item => (tag, item)) ++ rest) =
      (tag, items) :: groupNeighbours rest := by
  induction items with
  | nil => exact absurd rfl hitems
  | cons item items ih =>
      rw [List.map_cons, List.cons_append, groupNeighbours]
      cases items with
      | nil =>
          rw [List.map_nil, List.nil_append]
          cases rest with
          | nil => rfl
          | cons next rest =>
              rcases exists_groupNeighbours_cons next.1 next.2 rest with ⟨_, _, heq⟩
              simp only [heq, if_neg (hrest next List.mem_cons_self)]
      | cons item' items =>
          rw [ih (List.cons_ne_nil _ _)]
          exact if_pos rfl

/-- The groups have the same tags in the same order, and their items are related one by one. -/
def SameGroups {β : Type} (A : α → β → Prop) (gs : List (Nat × List α)) (hs : List (Nat × List β)) :
    Prop :=
  List.Forall₂ (fun g h => g.1 = h.1 ∧ List.Forall₂ A g.2 h.2) gs hs

/-- Groups are the same up to every weaker relation of their items too. -/
theorem SameGroups.imp {β : Type} {A A' : α → β → Prop} (hA : ∀ a b, A a b → A' a b)
    {gs : List (Nat × List α)} {hs : List (Nat × List β)} (h : SameGroups A gs hs) :
    SameGroups A' gs hs :=
  List.Forall₂.imp (fun _ _ hg => ⟨hg.1, List.Forall₂.imp hA hg.2⟩) h

/-- Groups stay the same if related items are mapped to related ones. -/
theorem SameGroups.map {α' β β' : Type} {A : α → β → Prop} {A' : α' → β' → Prop} {p : α → α'}
    {q : β → β'} (hpq : ∀ a b, A a b → A' (p a) (q b)) {gs : List (Nat × List α)}
    {hs : List (Nat × List β)} (h : SameGroups A gs hs) :
    SameGroups A' (gs.map fun g => (g.1, g.2.map p)) (hs.map fun g => (g.1, g.2.map q)) := by
  unfold SameGroups
  rw [List.forall₂_map_left_iff, List.forall₂_map_right_iff]
  refine List.Forall₂.imp (fun g g' hg => ⟨hg.1, ?_⟩) h
  rw [List.forall₂_map_left_iff, List.forall₂_map_right_iff]
  exact List.Forall₂.imp hpq hg.2

end Neighbours

variable {ε κ : Type} [Entry ε κ] [BEq κ]

namespace Chain

/-! ## Frame by frame -/

/-- The entries of the frame with an index whose keys no frame above it holds. -/
def uncoveredEntries (c : Chain ε) (i : Nat) : List ε :=
  match c.stack.frame? i with
  | some frame => frame.entries.filter fun e => !c.heldFrom (i + 1) (Entry.key e)
  | none => []

/-- There are as many uncovered entries as uncovered keys. -/
theorem length_uncoveredEntries (c : Chain ε) (i : Nat) :
    (c.uncoveredEntries i).length = c.uncovered i := by
  rw [uncoveredEntries, uncovered]
  cases c.stack.frame? i with
  | none => rfl
  | some frame => exact List.countP_eq_length_filter.symm

/-- The uncovered entries of a frame have distinct keys. -/
theorem distinct_uncoveredEntries (c : Chain ε) (i : Nat) :
    Entry.Distinct (c.uncoveredEntries i) := by
  rw [uncoveredEntries]
  cases c.stack.frame? i with
  | none => exact List.Pairwise.nil
  | some frame => exact frame.distinct.sublist (List.filter_sublist.map _)

/-- The uncovered entries of the first {lit}`n` frames, innermost first. -/
def entriesBelow (c : Chain ε) : Nat → List ε
  | 0 => []
  | n + 1 => c.uncoveredEntries n ++ c.entriesBelow n

/-- The same entries along with the indexes of their frames. -/
def locatedBelow (c : Chain ε) : Nat → List (Nat × ε)
  | 0 => []
  | n + 1 => (c.uncoveredEntries n).map (fun e => (n, e)) ++ c.locatedBelow n

/-- Those of the first {lit}`n` frames that have uncovered entries, with these entries. -/
def groupsBelow (c : Chain ε) : Nat → List (Nat × List ε)
  | 0 => []
  | n + 1 =>
    match c.uncoveredEntries n with
    | [] => c.groupsBelow n
    | e :: es => (n, e :: es) :: c.groupsBelow n

/-- What is located below an index is located there. -/
theorem lt_of_mem_locatedBelow (c : Chain ε) {n : Nat} {item : Nat × ε}
    (h : item ∈ c.locatedBelow n) : item.1 < n := by
  induction n with
  | zero => cases h
  | succ n ih =>
      rcases List.mem_append.mp h with hhere | hbelow
      · rcases List.mem_map.mp hhere with ⟨e, -, rfl⟩
        exact Nat.lt_succ_self n
      · exact Nat.lt_succ_of_lt (ih hbelow)

/-- Frame by frame, neighbours are the uncovered entries of a frame. -/
theorem groupNeighbours_locatedBelow (c : Chain ε) (n : Nat) :
    groupNeighbours (c.locatedBelow n) = c.groupsBelow n := by
  induction n with
  | zero => rfl
  | succ n ih =>
      rw [locatedBelow, groupsBelow]
      cases hentries : c.uncoveredEntries n with
      | nil => exact ih
      | cons e es =>
          have hother : ∀ next ∈ c.locatedBelow n, n ≠ next.1 := fun next hnext =>
            Nat.ne_of_gt (c.lt_of_mem_locatedBelow hnext)
          rw [groupNeighbours_append (List.cons_ne_nil e es) hother, ih]

variable [EquivBEq κ]

/--
What the walk shows of the first {lit}`n` frames are their uncovered entries, if the keys
seen before are those of the frames above.
-/
theorem firsts_below (c : Chain ε) {n : Nat} (hn : n ≤ c.depth) {seen : List κ}
    (hseen : ∀ k, seen.any (· == k) = c.heldFrom n k) :
    Visible.firsts seen ((c.stack.below n).map Frame.entries).flatten = c.entriesBelow n := by
  induction n generalizing seen with
  | zero =>
      rw [Stack.below_zero]
      rfl
  | succ n ih =>
      rcases c.stack.exists_frame? (i := n) hn with ⟨frame, hframe⟩
      have hkeys : ∀ k, (frame.entries.map Entry.key ++ seen).any (· == k) = c.heldFrom n k := by
        intro k
        rw [List.any_append, hseen, heldFrom_eq_or c hframe, Frame.contains, List.any_map]
        rfl
      have hhere : frame.entries.filter (fun e => !Visible.isSeen seen e) =
          c.uncoveredEntries n := by
        rw [uncoveredEntries, hframe]
        exact List.filter_congr fun e _ => by rw [Visible.isSeen, hseen]
      rw [Stack.below_succ, hframe, Option.toList_some, List.singleton_append, List.map_cons,
        List.flatten_cons, Visible.firsts_append seen frame.distinct, ih (by omega) hkeys, hhere,
        entriesBelow]

/-- The visible entries are the uncovered entries of all frames, innermost first. -/
theorem visibleEntries_eq (c : Chain ε) : c.visibleEntries = c.entriesBelow c.depth := by
  rw [visibleEntries, Visible.drain_eq]
  exact c.firsts_below (Nat.le_refl _) fun k => (c.heldFrom_of_depth_le (Nat.le_refl _) k).symm

/-- An uncovered entry resolves to the frame that holds it. -/
theorem located_uncoveredEntries (c : Chain ε) (i : Nat) :
    c.located (c.uncoveredEntries i) = (c.uncoveredEntries i).map fun e => (i, e) := by
  have hresolve : ∀ e ∈ c.uncoveredEntries i, c.resolve (Entry.key e) = some i := by
    intro e he
    rw [uncoveredEntries] at he
    cases hframe : c.stack.frame? i with
    | none =>
        rw [hframe] at he
        cases he
    | some frame =>
        rw [hframe] at he
        rcases List.mem_filter.mp he with ⟨hmem, hnew⟩
        refine (c.resolve_eq_some_iff _ i).mpr ⟨?_, by simpa using hnew⟩
        rw [hasAt, hframe]
        exact (frame.contains_eq_true_iff _).mpr ⟨e, hmem, BEq.rfl⟩
  rw [located, ← List.filterMap_eq_map]
  exact List.filterMap_congr fun e he => by
    rw [hresolve e he]
    rfl

/-- The uncovered entries below an index are located in the frames they are taken from. -/
theorem located_entriesBelow (c : Chain ε) (n : Nat) :
    c.located (c.entriesBelow n) = c.locatedBelow n := by
  induction n with
  | zero => rfl
  | succ n ih =>
      rw [entriesBelow, located, List.filterMap_append]
      exact congrArg₂ _ (c.located_uncoveredEntries n) ih

/-- The visible groups are the frames with uncovered entries, each with these entries sorted. -/
theorem visibleGroups_eq [Ord κ] (c : Chain ε) :
    c.visibleGroups = (c.groupsBelow c.depth).map fun g => (g.1, Entry.sorted g.2) := by
  rw [visibleGroups, visibleEntries_eq, located_entriesBelow, groupNeighbours_locatedBelow]

end Chain

/-! ## Sorting -/

namespace Entry

variable [Ord κ] [Std.TransOrd κ]

/-- Whether an entry may come before another one in the order of keys. -/
abbrev notAfter (a b : ε) : Bool :=
  (compare (Entry.key a) (Entry.key b)).isLE

omit [BEq κ] in
/-- Sorted entries are in the order of their keys. -/
theorem pairwise_sorted (entries : List ε) :
    (sorted entries).Pairwise fun a b => notAfter a b = true := by
  apply List.pairwise_mergeSort
  · exact fun a b c hab hbc => Std.TransCmp.isLE_trans hab hbc
  · intro a b
    have hswap : compare (Entry.key b) (Entry.key a) =
        (compare (Entry.key a) (Entry.key b)).swap := Std.OrientedCmp.eq_swap
    change (notAfter a b || notAfter b a) = true
    rw [notAfter, notAfter, hswap]
    cases compare (Entry.key a) (Entry.key b) <;> rfl

variable [EquivBEq κ] [Std.LawfulBEqOrd κ] {R : ε → ε → Prop}

omit [EquivBEq κ] in
/-- Matching entries are in the same order. -/
theorem notAfter_of_matched {a a' b b' : ε} (ha : Matched R a a') (hb : Matched R b b') :
    notAfter a b = notAfter a' b' := by
  have hleft : compare (Entry.key a) (Entry.key b) = compare (Entry.key a') (Entry.key b) :=
    Std.TransCmp.congr_left (Std.compare_eq_iff_beq.mpr ha.key)
  have hright : compare (Entry.key a') (Entry.key b) = compare (Entry.key a') (Entry.key b') :=
    Std.TransCmp.congr_right (Std.compare_eq_iff_beq.mpr hb.key)
  rw [notAfter, notAfter, hleft, hright]

omit [EquivBEq κ] in
/-- Entries are in order if their partners are. -/
theorem pairwise_of_matched {xs ys : List ε} (h : List.Forall₂ (Matched R) xs ys)
    (hys : ys.Pairwise fun a b => notAfter a b = true) :
    xs.Pairwise fun a b => notAfter a b = true := by
  induction h with
  | nil => exact List.Pairwise.nil
  | cons hhead hrest ih =>
      rcases List.pairwise_cons.mp hys with ⟨hfirst, hys⟩
      refine List.pairwise_cons.mpr ⟨fun x hx => ?_, ih hys⟩
      rcases exists_of_mem_left hrest hx with ⟨y, hy, hxy⟩
      rw [notAfter_of_matched hhead hxy]
      exact hfirst y hy

omit [Ord κ] [Std.TransOrd κ] [Std.LawfulBEqOrd κ] in
/-- Among entries with distinct keys those with equal keys are the same. -/
theorem eq_of_key_beq {entries : List ε} (h : Distinct entries) {a b : ε} (ha : a ∈ entries)
    (hb : b ∈ entries) (hkey : (Entry.key a == Entry.key b) = true) : a = b := by
  by_contra hne
  have hpairwise := List.pairwise_map.mp h
  have : Std.Symm fun x y : ε => (Entry.key x == Entry.key y) = false :=
    ⟨fun x y hxy => by rw [BEq.comm, hxy]⟩
  have hdiffer := hpairwise.forall ha hb hne
  rw [hkey] at hdiffer
  cases hdiffer

/-- Sorting brings entries with equal keys together, whatever order they were in. -/
theorem sorted_matched {xs ys zs : List ε} (hdistinct : Distinct xs) (hperm : xs.Perm ys)
    (h : List.Forall₂ (Matched R) ys zs) :
    List.Forall₂ (Matched R) (sorted xs) (sorted zs) := by
  have hcomp : Relation.Comp List.Perm (List.Forall₂ (Matched R)) ys (sorted zs) := by
    rw [← List.forall₂_comp_perm_eq_perm_comp_forall₂]
    exact ⟨zs, h, (Chain.sorted_perm zs).symm⟩
  rcases hcomp with ⟨ws, hws, hmatched⟩
  -- The partners of the sorted entries are in order as well, and there is only one such order.
  have hsorted : sorted xs = ws := by
    have hall : (sorted xs).Perm ws := ((Chain.sorted_perm xs).trans hperm).trans hws
    refine hall.eq_of_pairwise ?_ (pairwise_sorted xs)
      (pairwise_of_matched hmatched (pairwise_sorted zs))
    intro a b ha hb hab hba
    have hequal := Std.OrientedCmp.isLE_antisymm hab hba
    exact eq_of_key_beq hdistinct ((Chain.sorted_perm xs).mem_iff.mp ha)
      ((hperm.trans hws).mem_iff.mpr hb) (Std.compare_eq_iff_beq.mp hequal)
  rw [hsorted]
  exact hmatched

end Entry

/-! ## Chains with alike frames -/

namespace Chain

variable [EquivBEq κ] {L : Hasher → Hasher → Prop} {R : ε → ε → Prop} {c d : Chain ε}

/-- Chains with frames that are alike hold equal keys from the same indexes on. -/
theorem heldFrom_alike (h : Related L (Frame.Alike L R) c d) (n : Nat) {k k' : κ}
    (hk : (k == k') = true) : c.heldFrom n k = d.heldFrom n k' := by
  have hheld : ∀ j, c.hasAt j k = d.hasAt j k' := by
    refine Related.hasAt (A := R) (fun f g hfg => ?_) h
    rw [← g.find?_congr hk]
    exact hfg.find? k
  rw [Bool.eq_iff_iff, ← not_iff_not, Bool.not_eq_true, Bool.not_eq_true, heldFrom_eq_false_iff,
    heldFrom_eq_false_iff]
  simp only [hheld]

/-- The uncovered entries of frames with the same index are related in pairs. -/
theorem uncoveredEntries_alike (h : Related L (Frame.Alike L R) c d) (i : Nat) :
    ∃ entries, (c.uncoveredEntries i).Perm entries ∧
      List.Forall₂ (Entry.Matched R) entries (d.uncoveredEntries i) := by
  rw [uncoveredEntries, uncoveredEntries]
  rcases optionRel_cases (h.stack.frame? i) with ⟨hc, hd⟩ | ⟨f, g, hc, hd, hfg⟩
  · rw [hc, hd]
    exact ⟨[], List.Perm.refl _, .nil⟩
  · rw [hc, hd]
    rcases hfg.matched with ⟨entries, hperm, hmatched⟩
    refine ⟨entries.filter fun e => !c.heldFrom (i + 1) (Entry.key e), hperm.filter _, ?_⟩
    refine List.rel_filter (fun a b hab => ?_) hmatched
    have hheld := heldFrom_alike h (i + 1) hab.key
    simp only [hheld]

/-- Chains with frames that are alike have as many uncovered keys in each frame. -/
theorem uncoveredIndexes_alike (h : Related L (Frame.Alike L R) c d) (n : Nat) :
    c.uncoveredIndexes n = d.uncoveredIndexes n := by
  induction n with
  | zero => rfl
  | succ n ih =>
      rcases uncoveredEntries_alike h n with ⟨entries, hperm, hmatched⟩
      rw [uncoveredIndexes, uncoveredIndexes, ih, ← length_uncoveredEntries,
        ← length_uncoveredEntries, hperm.length_eq, hmatched.length_eq]

/-- The first visible keys resolve to frames with the same indexes. -/
theorem visibleFrames_alike (h : Related L (Frame.Alike L R) c d) (n : Nat) :
    c.visibleFrames n = d.visibleFrames n := by
  rw [visibleFrames_eq, visibleFrames_eq, uncoveredIndexes_alike h, h.depth]

/-- The visible groups have the same indexes, and their entries are related one by one. -/
theorem visibleGroups_alike [Ord κ] [Std.TransOrd κ] [Std.LawfulBEqOrd κ]
    (h : Related L (Frame.Alike L R) c d) :
    SameGroups (Entry.Matched R) c.visibleGroups d.visibleGroups := by
  have hbelow : ∀ n, SameGroups (Entry.Matched R)
      ((c.groupsBelow n).map fun g => (g.1, Entry.sorted g.2))
      ((d.groupsBelow n).map fun g => (g.1, Entry.sorted g.2)) := by
    intro n
    induction n with
    | zero => exact .nil
    | succ n ih =>
        rcases uncoveredEntries_alike h n with ⟨entries, hperm, hmatched⟩
        have hdistinct := c.distinct_uncoveredEntries n
        have hlength := hperm.length_eq.trans hmatched.length_eq
        rw [groupsBelow, groupsBelow]
        cases hc : c.uncoveredEntries n with
        | nil =>
            rw [hc] at hlength
            rw [List.length_eq_zero_iff.mp hlength.symm]
            exact ih
        | cons a as =>
            cases hd : d.uncoveredEntries n with
            | nil =>
                rw [hc, hd] at hlength
                cases hlength
            | cons b bs =>
                rw [hc] at hperm hdistinct
                rw [hd] at hmatched
                exact .cons ⟨rfl, Entry.sorted_matched hdistinct hperm hmatched⟩ ih
  rw [visibleGroups_eq, visibleGroups_eq, h.depth]
  exact hbelow _

/-- The groups of visible keys have the same indexes and equal keys. -/
theorem keyGroups_alike {ν : Type} [BEq ν] [Ord κ] [Std.TransOrd κ] [Std.LawfulBEqOrd κ]
    {R : Binding κ ν → Binding κ ν → Prop} {c d : Bindings κ ν}
    (h : Related L (Frame.Alike L R) c d) :
    SameGroups (fun k k' => (k == k') = true) c.keyGroups d.keyGroups :=
  (visibleGroups_alike h).map fun _ _ hab => hab.key

end Chain
end LexicalScope
