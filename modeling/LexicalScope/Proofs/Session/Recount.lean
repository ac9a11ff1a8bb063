import Mathlib.Data.List.Forall2
import LexicalScope.Proofs.Stack.Keep
import LexicalScope.Session.Event

/-!
# Logs that recount the depth

A log has one line for each push, each pop and each refusal to pop, and a line that has a
number in it gives the depth after what it records.  So a log can be read from a depth on: a
line for a push must give a depth that is greater by one, a line for a pop one that is less by
one and still positive, and a refusal can only stand where the depth is one.  No other line
can be read.

What changes the depth, or would have, is listed apart from the log, as pushes and attempts to
pop.  A log recounts these attempts if it can be read and each attempt has its own line in it.

Main results:

- Definition {lit}`Event.readLog?`: the depth that a log leads to.
- Theorems {lit}`Recounts.push` and {lit}`Recounts.pop`: the log of a single attempt.
- Theorem {lit}`Recounts.append`: logs that recount attempts can be joined.
-/

namespace LexicalScope

/-- A push, or an attempt to pop, which may be refused. -/
inductive Attempt where
  | push
  | pop (accepted : Bool)
  deriving DecidableEq

/-- The event is how the attempt is recorded. -/
inductive Attempt.ToldBy : Attempt → Event → Prop where
  | pushed (depth : Nat) : ToldBy .push (.pushed depth)
  | popped (depth : Nat) : ToldBy (.pop true) (.popped depth)
  | refused : ToldBy (.pop false) .refused

/-! ## Reading a log -/

namespace Event

/-- The depth after what a line records, if the line can stand where the depth is the given one. -/
def readLine? (depth : Nat) (line : String) : Option Nat :=
  if line = "TRACE pushed scope, depth is now " ++ Decimal.text (depth + 1) then
    some (depth + 1)
  else if 1 < depth ∧ line = "TRACE popped scope, depth is now " ++ Decimal.text (depth - 1) then
    some (depth - 1)
  else if depth = 1 ∧ line = "DEBUG refusing to pop the root scope" then
    some depth
  else
    none

/-- The depth that a log leads to, if all of its lines can stand where they do. -/
def readLog? (depth : Nat) (lines : List String) : Option Nat :=
  lines.foldlM readLine? depth

/-- Texts that begin differently are different. -/
theorem ne_of_take_toList {s t : String} (n : Nat) (h : s.toList.take n ≠ t.toList.take n) :
    s ≠ t :=
  fun heq => h (by rw [heq])

theorem line_pushed (depth : Nat) :
    (pushed depth).line = "TRACE pushed scope, depth is now " ++ Decimal.text depth := by
  have hstart : "TRACE" ++ " " ++ "pushed scope, depth is now " =
      "TRACE pushed scope, depth is now " := by decide
  rw [← hstart, String.append_assoc]
  rfl

theorem line_popped (depth : Nat) :
    (popped depth).line = "TRACE popped scope, depth is now " ++ Decimal.text depth := by
  have hstart : "TRACE" ++ " " ++ "popped scope, depth is now " =
      "TRACE popped scope, depth is now " := by decide
  rw [← hstart, String.append_assoc]
  rfl

theorem line_refused : refused.line = "DEBUG refusing to pop the root scope" := by
  decide

/-- The line of a push is read back as one frame more. -/
theorem readLine?_pushed (depth : Nat) :
    readLine? depth (pushed (depth + 1)).line = some (depth + 1) := by
  rw [readLine?, if_pos (line_pushed _)]

/-- The line of a pop is read back as one frame less. -/
theorem readLine?_popped {depth : Nat} (h : 0 < depth) :
    readLine? (depth + 1) (popped depth).line = some depth := by
  have hpush : (popped depth).line ≠
      "TRACE pushed scope, depth is now " ++ Decimal.text (depth + 1 + 1) := by
    rw [line_popped]
    apply ne_of_take_toList 8
    rw [String.toList_append, String.toList_append, List.take_append_of_le_length (by decide),
      List.take_append_of_le_length (by decide)]
    decide
  rw [readLine?, if_neg hpush, if_pos ⟨by omega, line_popped depth⟩]
  rfl

/-- The line of a refused pop is read back as the root alone. -/
theorem readLine?_refused : readLine? 1 refused.line = some 1 := by
  have hpush : refused.line ≠ "TRACE pushed scope, depth is now " ++ Decimal.text (1 + 1) := by
    rw [line_refused]
    apply ne_of_take_toList 1
    rw [String.toList_append, List.take_append_of_le_length (by decide)]
    decide
  rw [readLine?, if_neg hpush, if_neg (fun h => absurd h.1 (by decide)), if_pos ⟨rfl, line_refused⟩]

end Event

/-! ## Logs and attempts -/

/-- A log recounts attempts that lead from one depth to another. -/
structure Recounts (depth : Nat) (attempts : List Attempt) (log : List Event) (last : Nat) :
    Prop where
  /-- Reading the lines of the log in order leads from one depth to the other. -/
  read : Event.readLog? depth (log.map Event.line) = some last
  /-- Each attempt has a line of its own, in the same order, and there are no other lines. -/
  told : List.Forall₂ Attempt.ToldBy attempts log
  /-- The pushes add to the depth, and the pops that are accepted take from it. -/
  count : last + attempts.count (.pop true) = depth + attempts.count .push

namespace Recounts

variable {depth middle last : Nat} {attempts attempts' : List Attempt} {log log' : List Event}

theorem nil (depth : Nat) : Recounts depth [] [] depth :=
  ⟨rfl, .nil, rfl⟩

/-- An attempt to push is recorded with the new depth. -/
theorem push (depth : Nat) : Recounts depth [.push] [.pushed (depth + 1)] (depth + 1) where
  read := by
    rw [Event.readLog?, List.map_singleton, List.foldlM_cons, Event.readLine?_pushed]
    rfl
  told := .cons (.pushed _) .nil
  count := rfl

/-- An attempt to pop a frame above the root is recorded with the new depth. -/
theorem pop (h : 0 < depth) : Recounts (depth + 1) [.pop true] [.popped depth] depth where
  read := by
    rw [Event.readLog?, List.map_singleton, List.foldlM_cons, Event.readLine?_popped h]
    rfl
  told := .cons (.popped _) .nil
  count := rfl

/-- An attempt to pop the root is recorded as refused. -/
theorem refused : Recounts 1 [.pop false] [.refused] 1 where
  read := by
    rw [Event.readLog?, List.map_singleton, List.foldlM_cons, Event.readLine?_refused]
    rfl
  told := .cons .refused .nil
  count := rfl

/-- Logs that recount attempts can be joined. -/
theorem append (h : Recounts depth attempts log middle)
    (h' : Recounts middle attempts' log' last) :
    Recounts depth (attempts ++ attempts') (log ++ log') last where
  read := by
    have hread := h.read
    rw [Event.readLog?] at hread ⊢
    rw [List.map_append, List.foldlM_append, hread]
    exact h'.read
  told := List.rel_append h.told h'.told
  count := by
    have hcount := h.count
    have hcount' := h'.count
    rw [List.count_append, List.count_append]
    omega

end Recounts

/-- A pop is told with the depth after it if it is accepted; else the root alone is left. -/
theorem Stack.recounts_pop {φ : Type} (s : Stack φ) :
    (∃ frame rest, s.pop = (.ok frame, rest) ∧
      Recounts s.depth [.pop true] [.popped rest.depth] rest.depth) ∨
    (s.pop = (.error .underflow, s) ∧ Recounts s.depth [.pop false] [.refused] s.depth) := by
  have hpos := s.depth_pos
  by_cases hroot : s.depth = 1
  · refine Or.inr ⟨s.pop_of_depth_eq_one hroot, ?_⟩
    rw [hroot]
    exact .refused
  · refine Or.inl ⟨_, _, s.pop_of_one_lt_depth (by omega), ?_⟩
    have hkeep : (s.keep (s.depth - 1)).depth + 1 = s.depth := by
      rw [s.depth_keep (by omega)]
      omega
    have hlog := Recounts.pop (s.keep (s.depth - 1)).depth_pos
    rwa [hkeep] at hlog

end LexicalScope
