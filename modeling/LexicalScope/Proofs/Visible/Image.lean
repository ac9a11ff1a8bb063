import LexicalScope.Proofs.Stack.Related
import LexicalScope.Proofs.Visible.Firsts

/-!
# The visible walk over images of entries

The walk looks at the keys of the entries only.  So if the entries of one chain are the
images of the entries of another chain under a function that keeps the keys, what the
walk shows of the one chain are the images of what it shows of the other.

Main results:

- Theorem {lit}`Visible.firsts_map`: the first entries of each key, for images.
- Theorem {lit}`Chain.visibleGroups_image`: the groups of visible entries, for images.
- Theorem {lit}`Chain.visibleHints_eq`: the size hints before and after the walk are the same
  for all chains.
-/

namespace LexicalScope

variable {ε ε' κ : Type} [Entry ε κ] [Entry ε' κ] {p : ε' → ε}

/-- Items may be mapped before or after neighbours are grouped. -/
theorem groupNeighbours_map {α β : Type} (f : α → β) (items : List (Nat × α)) :
    groupNeighbours (items.map fun item => (item.1, f item.2)) =
      (groupNeighbours items).map fun g => (g.1, g.2.map f) := by
  induction items with
  | nil => rfl
  | cons item rest ih =>
      rcases item with ⟨tag, item⟩
      rw [List.map_cons, groupNeighbours, groupNeighbours, ih]
      cases groupNeighbours rest with
      | nil => rfl
      | cons group groups =>
          rcases group with ⟨next, items⟩
          by_cases htag : tag = next <;> simp [htag]

/-- Entries may be mapped before or after sorting if their keys stay. -/
theorem sorted_map [Ord κ] (hp : ∀ e, Entry.key (p e) = Entry.key e) (entries : List ε') :
    Entry.sorted (entries.map p) = (Entry.sorted entries).map p := by
  refine (List.map_mergeSort fun a _ b _ => ?_).symm
  rw [hp, hp]

variable [BEq κ]

/-! ## The walk -/

namespace Visible

/-- Entries may be mapped before or after the walk if their keys stay. -/
theorem firsts_map (hp : ∀ e, Entry.key (p e) = Entry.key e) (seen : List κ) (entries : List ε') :
    firsts seen (entries.map p) = (firsts seen entries).map p := by
  induction entries generalizing seen with
  | nil => rfl
  | cons entry rest ih =>
      have hseen : isSeen seen (p entry) = isSeen seen entry := by rw [isSeen, isSeen, hp]
      rw [List.map_cons, firsts, firsts, hseen, hp, ih, ih]
      split <;> rfl

/-- After more steps than there are entries to show, nothing is left to read. -/
theorem inner_take (n : Nat) (v : Visible ε) (hn : (firsts v.seen v.inner.toList).length < n) :
    (v.take n).2.inner = ⟨[], []⟩ := by
  induction n generalizing v with
  | zero => cases hn
  | succ n ih =>
      have hstep := firsts_eq_firstUnseen v.seen v.inner.current v.inner.pending
      rw [Runs.toList, hstep] at hn
      rw [take, next]
      cases hfound : firstUnseen v.seen v.inner.current v.inner.pending with
      | none => rfl
      | some found =>
          rw [hfound] at hn
          exact ih ⟨found.2, Entry.key found.1 :: v.seen⟩ (Nat.lt_of_succ_lt_succ hn)

/-- A walk that has shown everything has nothing left to show. -/
theorem sizeHint_drain (v : Visible ε) : v.drain.2.sizeHint = ⟨0, some 0⟩ := by
  have hinner : v.drain.2.inner = ⟨[], []⟩ :=
    inner_take _ v (Nat.lt_succ_of_le (length_firsts_le _ _))
  rw [sizeHint, hinner]
  rfl

end Visible

/-! ## Chains -/

namespace Chain

/-- The hints before and after the visible walk are the same for every chain. -/
theorem visibleHints_eq (c : Chain ε) : c.visibleHints = (⟨0, none⟩, ⟨0, some 0⟩) := by
  rw [visibleHints, Visible.sizeHint_drain, visible, c.stack.fromTop_eq_cons]
  rfl

variable {c : Chain ε} {d : Chain ε'}

/-- Entries that are mapped are located where they were, if the keys resolve alike. -/
theorem located_image (hp : ∀ e, Entry.key (p e) = Entry.key e)
    (hresolve : ∀ k, c.resolve k = d.resolve k) (entries : List ε') :
    c.located (entries.map p) = (d.located entries).map fun item => (item.1, p item.2) := by
  simp only [located, List.filterMap_map, List.map_filterMap, Function.comp_def, hp, hresolve,
    Option.map_map]

section Image

variable (hp : ∀ e, Entry.key (p e) = Entry.key e)
  (hframes : c.stack.Related (fun f g => f.entries = g.entries.map p) d.stack)
include hp hframes

/-- The walk over the mapped frames shows the mapped entries. -/
theorem firsts_image :
    Visible.firsts [] c.visible.inner.toList = (Visible.firsts [] d.visible.inner.toList).map p := by
  have hruns : c.stack.fromTop.map Frame.entries =
      (d.stack.fromTop.map Frame.entries).map fun run => run.map p := by
    rw [List.map_map]
    exact map_eq_map_of_forall₂ hframes.fromTop fun _ _ hfg => hfg
  rw [← Visible.firsts_map hp, visible, visible, hruns]
  simp only [Visible.ofRuns, Runs.toList, List.nil_append, ← List.map_flatten]

variable (hresolve : ∀ k, c.resolve k = d.resolve k)
include hresolve

/-- The groups of visible entries are the images of the groups of the other chain. -/
theorem visibleGroups_image [Ord κ] :
    c.visibleGroups = d.visibleGroups.map fun g => (g.1, g.2.map p) := by
  have hentries : c.visibleEntries = d.visibleEntries.map p := by
    rw [visibleEntries, visibleEntries, Visible.drain_eq, Visible.drain_eq]
    exact firsts_image hp hframes
  rw [visibleGroups, visibleGroups, hentries, located_image hp hresolve, groupNeighbours_map,
    List.map_map, List.map_map]
  exact List.map_congr_left fun g _ => by
    simp only [Function.comp_apply, sorted_map hp]

/-- The first visible entries are held by frames with the same indexes. -/
theorem visibleFrames_image (n : Nat) : c.visibleFrames n = d.visibleFrames n := by
  have htake : (c.visible.take n).1 = ((d.visible.take n).1).map p := by
    rw [Visible.take_eq, Visible.take_eq, List.map_take]
    exact congrArg (List.take n) (firsts_image hp hframes)
  rw [visibleFrames, visibleFrames, htake, located_image hp hresolve, List.map_map]
  rfl

end Image

end Chain
end LexicalScope
