import LexicalScope.Proofs.Stack.Walks
import LexicalScope.Rows.Session

/-!
# Walks over rows, and the marks they leave

A session with a stack of rows walks below an index in two ways.  It lists the first rows of the
walk, together with what is known of the number of rows at the start, or it appends a mark to each
of the first rows.  The marks go up by one from row to row and wrap around at 64 bits, while the
indexes of the rows go down.

Main results:

- Theorem {lit}`Rows.handed_mark`: the marks that rows get when they are handed over one by one.
- Theorem {lit}`Rows.marked_changeWhileBelow`: which rows of a stack are marked, and with what.
- Theorem {lit}`Rows.walks_visit_frames_below`: the walks over a stack of any frames, and what
  sessions with rows do with them.
-/

namespace LexicalScope
namespace Rows

/-! ## Marks -/

/-- A mark is the first one plus the number of rows before, wrapped to 64 bits. -/
theorem toInt_mark (first : Int64) (j : Nat) :
    (first + Int64.ofNat j).toInt = (first.toInt + j).bmod Int64.size := by
  rw [Int64.toInt_add, Int64.toInt_ofNat']
  exact Int.add_bmod_bmod

/-- How many of some rows the limit lets a walk mark. -/
def markable (limit : Option Nat) (rows : Nat) : Nat :=
  limit.elim rows fun most => min most rows

/-- A row is not marked if and only if there is a limit and it has been reached. -/
theorem mark_eq_none_iff (first : Int64) (limit : Option Nat) (marked : Nat) (row : Row) :
    mark first limit marked row = none ↔ ∃ most ∈ limit, most ≤ marked := by
  cases limit with
  | none => simp [mark]
  | some most => simp [mark]

/--
A row is marked with the first number plus how many were marked before, and the count goes on.
-/
theorem mark_eq_some {first : Int64} {limit : Option Nat} {marked next : Nat} {row changed : Row}
    (h : mark first limit marked row = some (changed, next)) :
    changed = row.push (first + Int64.ofNat marked) ∧ next = marked + 1 ∧
      ∀ most ∈ limit, marked < most := by
  rw [mark] at h
  split at h
  · next hall =>
    rw [Option.some.injEq, Prod.mk.injEq] at h
    refine ⟨h.1.symm, h.2.symm, fun most hmost => ?_⟩
    rw [Option.mem_def.mp hmost] at hall
    exact of_decide_eq_true hall
  · cases h

/-- Rows that are handed over one by one get marks that go up by one. -/
theorem handed_mark {first : Int64} {limit : Option Nat} {marked last : Nat}
    {rows changes : List Row} (h : Stack.Handed (mark first limit) marked rows changes last) :
    last = marked + rows.length ∧ (∀ most ∈ limit, last ≤ max marked most) ∧
      ∀ j : Nat, changes[j]? =
        rows[j]?.map fun row : Row => row.push (first + Int64.ofNat (marked + j)) := by
  induction h with
  | nil marked => exact ⟨rfl, fun most _ => Nat.le_max_left _ _, fun _ => rfl⟩
  | @cons marked next last row changed rows changes head tail ih =>
      rcases mark_eq_some head with ⟨rfl, rfl, hlimit⟩
      rcases ih with ⟨hlast, hmost, hchanges⟩
      refine ⟨by rw [hlast, List.length_cons]; omega, fun most h => ?_, fun j => ?_⟩
      · have hlt := hlimit most h
        have hle := hmost most h
        omega
      · cases j with
        | zero => rfl
        | succ j =>
            have hplace : marked + 1 + j = marked + (j + 1) := by omega
            rw [List.getElem?_cons_succ, List.getElem?_cons_succ, hchanges, hplace]

/--
The stack {lit}`t` arises from {lit}`s` by marking the first rows of the walk below an index, as
many as {lit}`count` says: the row that the walk visits after {lit}`j` others gets one more integer
at its end, and no other row changes.
-/
structure Marked (s : Stack Row) (x : Nat) (first : Int64) (count : Nat) (t : Stack Row) :
    Prop where
  depth : t.depth = s.depth
  marked : ∀ j < count, ∃ row row' n, s.frame? (min x s.depth - 1 - j) = some row ∧
    t.frame? (min x s.depth - 1 - j) = some row' ∧ row'.toList = row.toList ++ [n] ∧
      n.toInt = (first.toInt + j).bmod Int64.size
  others : ∀ i, (∀ j < count, i ≠ min x s.depth - 1 - j) → t.frame? i = s.frame? i

/-- Marking the rows below an index marks as many as there are, or as many as the limit allows. -/
theorem marked_changeWhileBelow (s : Stack Row) (x : Nat) (first : Int64) (limit : Option Nat) :
    (s.changeWhileBelow x (mark first limit) 0).1 = markable limit (min x s.depth) ∧
      Marked s x first (markable limit (min x s.depth))
        (s.changeWhileBelow x (mark first limit) 0).2 := by
  rcases s.changes_changeWhileBelow x (mark first limit) 0 with ⟨n, changes, h⟩
  rcases handed_mark h.handed with ⟨hlast, hmost, hchanges⟩
  have hlength : ((s.below x).take n).length = n := by
    rw [List.length_take, Stack.length_below]
    exact Nat.min_eq_left h.le
  rw [hlength, Nat.zero_add] at hlast
  rw [hlast] at hmost
  -- The walk ends when no row is left or when the limit is reached.
  have hcount : n = markable limit (min x s.depth) := by
    have hle := h.le
    rcases h.stops with hall | ⟨row, -, hdeclined⟩
    · cases limit with
      | none => exact hall
      | some most =>
          have hn := hmost most rfl
          rw [markable, Option.elim_some]
          omega
    · rcases (mark_eq_none_iff _ _ _ _).mp hdeclined with ⟨most, hlimit, hreached⟩
      have hn := hmost most hlimit
      rw [hlast] at hreached
      rw [Option.mem_def.mp hlimit, markable, Option.elim_some]
      omega
  rw [← hcount]
  refine ⟨hlast, h.depth, fun j hj => ?_, fun i hi => h.others i ?_⟩
  · have hlt : j < min x s.depth := Nat.lt_of_lt_of_le hj h.le
    have hbelow := s.getElem?_below x hlt
    rcases s.exists_frame? (i := min x s.depth - 1 - j) (by omega) with ⟨row, hrow⟩
    refine ⟨row, row.push (first + Int64.ofNat j), first + Int64.ofNat j, hrow, ?_,
      row.toList_push _, toInt_mark first j⟩
    rw [h.visited j hj, hchanges, List.getElem?_take_of_lt hj, hbelow, hrow, Nat.zero_add]
    rfl
  · by_contra hvisited
    exact hi (min x s.depth - 1 - i) (by omega) (by omega)

/-! ## Requests -/

namespace Session

/-- What a session with rows answers to requests for walks, and the session after them. -/
structure WalkRequests (s : Session) : Prop where
  /-- The size hint of the walk at its start, and the first rows that it gives. -/
  walkBelow : ∀ (x : Nat) (limit : Option Nat), exec (.walkBelow x limit) s =
    (.walk (s.stack.walkBelow x).sizeHint
      ((s.stack.walkBelow x).take (limit.getD (min x s.stack.depth))).1, s)
  /-- How many rows are marked, and these are marked. -/
  markBelow : ∀ (x : Nat) (first : Int64) (limit : Option Nat), ∃ t,
    exec (.markBelow x first limit) s =
        (.number (markable limit (min x s.stack.depth)), { s with stack := t }) ∧
      Marked s.stack x first (markable limit (min x s.stack.depth)) t
  /-- The walks over the whole stack are those below the depth. -/
  walk : ∀ limit, exec (.walk limit) s = exec (.walkBelow s.stack.depth limit) s
  markAll : ∀ first limit, exec (.markAll first limit) s =
    exec (.markBelow s.stack.depth first limit) s

/-- Walk requests answer and mark the frames below their index, innermost first. -/
theorem walkRequests (s : Session) : s.WalkRequests where
  walkBelow := by
    intro x limit
    have hhint : (s.stack.walkBelow x).sizeHint = .exact (min x s.stack.depth) := by
      rw [Stack.Walk.sizeHint_eq, Stack.frames_walkBelow, Stack.length_below]
    rw [hhint, (Stack.Walk.take_eq _ _).1, Stack.frames_walkBelow, ← Stack.takeBelow_eq, exec]
    rfl
  markBelow := by
    intro x first limit
    rcases marked_changeWhileBelow s.stack x first limit with ⟨hcount, hmarked⟩
    refine ⟨_, ?_, hmarked⟩
    rw [← hcount, exec]
    rfl
  walk := by
    intro limit
    rw [exec, exec]
    rfl
  markAll := by
    intro first limit
    rw [exec, exec]
    rfl

end Session

/--
A walk below an index visits the frames from the one before the index, or from the current one if
the index is past the depth, down to the root, each once; it says at every moment how many are left.
Walks that change frames visit the same frames in the same order until they are left.  In a session
with rows, the first of the rows visited are listed, or are marked with integers that go up by one
and wrap around at 64 bits, and nothing else changes.
-/
theorem walks_visit_frames_below :
    (∀ {φ : Type} (s : Stack φ) (x : Nat), Stack.WalksBelow s x) ∧
      ∀ s : Session, s.WalkRequests :=
  ⟨fun s x => s.walksBelow x, Session.walkRequests⟩

end Rows
end LexicalScope
