import LexicalScope.Proofs.Visible.Walk

/-!
# The size hints of the visible walk

How many entries are left to read is known from the moment the last frame is open.  The walk
hands that number out as its upper bound, though it will skip those of the entries whose keys
were seen.  So fewer entries may come than the bound allows, but at no moment do more.

Main results:

- Theorem {lit}`Visible.drain_after`: after so many calls, so many entries less are to come.
- Theorem {lit}`Visible.length_drain_le_upper`: an upper bound holds at every moment of a walk.
- Theorem {lit}`Chain.visible_hints`: the hints along the walk over a chain.
-/

namespace LexicalScope
namespace Visible

variable {ε κ : Type} [Entry ε κ] [BEq κ]

/-! ## After so many calls -/

/-- The walk after so many calls for the next entry, whatever they answer. -/
def after : Nat → Visible ε → Visible ε
  | 0, v => v
  | n + 1, v => after n v.next.2

/-- The last of several calls is made on the walk after the others. -/
theorem after_succ (n : Nat) (v : Visible ε) : after (n + 1) v = (after n v).next.2 := by
  induction n generalizing v with
  | zero => rfl
  | succ n ih => exact ih v.next.2

/-- Calls can be counted in two parts. -/
theorem after_add (m n : Nat) (v : Visible ε) : after (m + n) v = after n (after m v) := by
  induction n with
  | zero => rfl
  | succ n ih => rw [after_succ, ← ih, ← after_succ, Nat.add_assoc]

/-- A call shows the first of the entries to come, and leaves the others. -/
theorem drain_eq_next (v : Visible ε) : v.drain.1 = v.next.1.toList ++ v.next.2.drain.1 := by
  have hstep := firsts_eq_firstUnseen v.seen v.inner.current v.inner.pending
  rw [drain_eq, drain_eq, Runs.toList, hstep, next]
  cases firstUnseen v.seen v.inner.current v.inner.pending with
  | none => rfl
  | some found => rfl

/-- When a call shows nothing, nothing is left to read. -/
theorem inner_of_next_none {v : Visible ε} (h : v.next.1 = none) : v.next.2.inner = ⟨[], []⟩ := by
  rw [next] at h ⊢
  cases hfound : firstUnseen v.seen v.inner.current v.inner.pending with
  | none => rfl
  | some found =>
      rw [hfound] at h
      cases h

/-- A walk with nothing left to read stays as it is. -/
theorem after_of_ended {v : Visible ε} (h : v.inner = ⟨[], []⟩) (n : Nat) : after n v = v := by
  have hnext : v.next.2 = v := by
    rcases v with ⟨inner, seen⟩
    cases h
    rfl
  induction n with
  | zero => rfl
  | succ n ih => rw [after, hnext, ih]

/-- A walk that shows nothing next shows nothing at all. -/
theorem drain_of_next_none {v : Visible ε} (h : v.next.1 = none) : v.drain.1 = [] := by
  rw [drain_eq_next, h, drain_eq, inner_of_next_none h]
  rfl

/-- After so many calls, so many entries less are to come. -/
theorem drain_after (n : Nat) (v : Visible ε) : (after n v).drain.1 = v.drain.1.drop n := by
  induction n generalizing v with
  | zero => rfl
  | succ n ih =>
      rw [after, ih]
      cases hnext : v.next.1 with
      | none =>
          have hempty := drain_of_next_none hnext
          rw [drain_eq_next, hnext] at hempty
          rw [drain_of_next_none hnext, show v.next.2.drain.1 = [] from hempty]
          simp
      | some entry =>
          rw [v.drain_eq_next, hnext]
          rfl

/-- The next call shows the entry that comes after so many others. -/
theorem next_after (n : Nat) (v : Visible ε) : (after n v).next.1 = v.drain.1[n]? := by
  rw [← List.head?_drop, ← drain_after]
  cases hnext : (after n v).next.1 with
  | none =>
      rw [drain_of_next_none hnext]
      rfl
  | some entry =>
      rw [drain_eq_next, hnext]
      rfl

/-! ## The upper bound -/

omit [BEq κ] in
/-- The upper bound is how much is left of the last frame. -/
theorem upper_eq_some_iff {v : Visible ε} {hi : Nat} :
    v.sizeHint.upper = some hi ↔ v.inner.pending = [] ∧ v.inner.current.length = hi := by
  rcases v with ⟨⟨current, _ | ⟨run, pending⟩⟩, seen⟩
  · simp [sizeHint, Runs.sizeHint, SizeHint.exact]
  · simp [sizeHint, Runs.sizeHint]

/-- At least as many entries are left to read as are to be shown. -/
theorem length_drain_le_upper {v : Visible ε} {hi : Nat} (h : v.sizeHint.upper = some hi) :
    v.drain.1.length ≤ hi := by
  rcases upper_eq_some_iff.mp h with ⟨hpending, hcurrent⟩
  have hleft : v.inner.toList = v.inner.current := by
    rw [Runs.toList, hpending, List.flatten_nil, List.append_nil]
  rw [drain_eq, hleft, ← hcurrent]
  exact length_firsts_le _ _

/-- An upper bound stays one and goes down, unless it is zero. -/
theorem upper_next {v : Visible ε} {hi : Nat} (h : v.sizeHint.upper = some hi) :
    ∃ hi' ≤ hi - 1, v.next.2.sizeHint.upper = some hi' := by
  rcases upper_eq_some_iff.mp h with ⟨hpending, hcurrent⟩
  simp only [upper_eq_some_iff]
  refine ⟨_, ?_, ?_, rfl⟩
  · rw [next, hpending, firstUnseen]
    have hdrop := v.inner.current.dropWhile_suffix (isSeen v.seen)
    cases hfound : v.inner.current.dropWhile (isSeen v.seen) with
    | nil => exact Nat.zero_le _
    | cons entry rest =>
        rw [hfound] at hdrop
        have hlength := hdrop.length_le
        rw [List.length_cons] at hlength
        change rest.length ≤ hi - 1
        omega
  · rw [next, hpending, firstUnseen]
    cases v.inner.current.dropWhile (isSeen v.seen) <;> rfl

/-- From a call that shows nothing on, the hint is that nothing is to come. -/
theorem sizeHint_of_ended {v : Visible ε} (h : v.next.1 = none) (n : Nat) :
    (after n v.next.2).sizeHint = ⟨0, some 0⟩ := by
  rw [after_of_ended (inner_of_next_none h)]
  exact sizeHint_of_next_none h

/-! ## Along the walk -/

/-- What the hints of a walk over some runs promise, after any number of calls. -/
structure Hints (runs : List (List ε)) : Prop where
  /-- The calls so far have shown the first entries, and the others are to come. -/
  answers : ∀ n, (after n (ofRuns runs)).next.1 = (ofRuns runs).drain.1[n]?
  remaining : ∀ n, (after n (ofRuns runs)).drain.1 = (ofRuns runs).drain.1.drop n
  /-- Every entry that is left may have to be skipped. -/
  lower : ∀ n, (after n (ofRuns runs)).sizeHint.lower = 0
  /-- An upper bound is at least the number of entries to come. -/
  upper : ∀ n hi, (after n (ofRuns runs)).sizeHint.upper = some hi →
    (after n (ofRuns runs)).drain.1.length ≤ hi
  /-- Once there is an upper bound, there is one after every further call, which never grows. -/
  settled : ∀ n hi, (after n (ofRuns runs)).sizeHint.upper = some hi →
    ∃ hi' ≤ hi - 1, (after (n + 1) (ofRuns runs)).sizeHint.upper = some hi'
  /-- Before the first call a frame is unread, so there is no upper bound. -/
  start : (ofRuns runs).sizeHint = ⟨0, none⟩
  /-- Once a call has shown nothing, nothing is to come. -/
  ended : ∀ m n, m < n → (after m (ofRuns runs)).next.1 = none →
    (after n (ofRuns runs)).sizeHint = ⟨0, some 0⟩

/-- The hints of a walk over at least one run are as described. -/
theorem hints_of_ne_nil {runs : List (List ε)} (h : runs ≠ []) : Hints runs := by
  constructor
  case answers => exact fun n => next_after n _
  case remaining => exact fun n => drain_after n _
  case lower => exact fun _ => rfl
  case upper => exact fun _ _ => length_drain_le_upper
  case settled =>
    intro n hi hupper
    rw [after_succ]
    exact upper_next hupper
  case start =>
    rcases List.exists_cons_of_ne_nil h with ⟨run, runs, rfl⟩
    exact sizeHint_ofRuns run runs
  case ended =>
    intro m n hmn hnext
    rcases Nat.exists_eq_add_of_le hmn with ⟨k, rfl⟩
    rw [after_add, after_succ]
    exact sizeHint_of_ended hnext k

end Visible

/-! ## The walk over a chain -/

namespace Chain

variable {ε κ : Type} [Entry ε κ] [BEq κ]

/-- An enumeration of the frames has a run at least for the root. -/
theorem runs_ne_nil {c : Chain ε} {runs : List (List ε)} (h : c.Enumerates runs) : runs ≠ [] := by
  intro hnil
  rw [Enumerates, hnil, List.forall₂_nil_left_iff, c.stack.fromTop_eq_cons] at h
  cases h

/--
Whatever the order in which the walk reads the entries of each frame of a chain, of bindings or
of names, the hints along the walk are right.
-/
theorem visible_hints (c : Chain ε) (runs : List (List ε)) (h : c.Enumerates runs) :
    Visible.Hints runs :=
  Visible.hints_of_ne_nil (runs_ne_nil h)

/-- Above the root there is an empty frame and one that shadows: one entry is promised in vain. -/
theorem visible_hints_shadowed :
    let root : Frame (Binding Nat Bool) := .ofList .standard [⟨1, false⟩, ⟨2, false⟩]
    let c : Bindings Nat Bool :=
      (Chain.ofRoot root).push.pushFrame (.ofList .standard [⟨1, true⟩])
    let runs : List (List (Binding Nat Bool)) := [[⟨1, true⟩], [], [⟨2, false⟩, ⟨1, false⟩]]
    c.Enumerates runs ∧ Visible.Hints runs ∧
      (Visible.after 1 (.ofRuns runs)).sizeHint = ⟨0, none⟩ ∧
      (Visible.after 2 (.ofRuns runs)).sizeHint = ⟨0, some 1⟩ ∧
      (Visible.after 2 (.ofRuns runs)).drain.1.length = 0 ∧
      (Visible.after 3 (.ofRuns runs)).sizeHint = ⟨0, some 0⟩ := by
  intro root c runs
  have hruns : c.Enumerates runs :=
    .cons (List.Perm.refl _) (.cons (List.Perm.refl _) (.cons (List.Perm.swap _ _ []) .nil))
  exact ⟨hruns, visible_hints c runs hruns, by decide, by decide, by decide, by decide⟩

end Chain
end LexicalScope
