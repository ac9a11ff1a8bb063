import LexicalScope.Proofs.Session.Recount
import LexicalScope.Rows.Session

/-!
# Logs of sessions with a stack of rows

In a session with a stack of rows the depth changes by pushes and pops alone, unless the
session goes back to a saved copy; and each of them is recorded.  So what is recorded after
a step of a run, and in the steps before it, recounts all pushes and all attempts to pop, and
ends at the depth that the step reports.

Main results:

- Theorem {lit}`Rows.Session.logs_exec`: the log of a request recounts its attempts.
- Theorem {lit}`Rows.Session.logsRecount_start`: so do the logs of the first steps of a run.
-/

namespace LexicalScope

/-! ## Changes that keep the depth -/

namespace Stack

universe u v w

variable {φ : Type u} {α : Type v} {σ : Type w}

/-- Changing the frame with an index keeps the depth. -/
theorem depth_modifyFrame (s : Stack φ) (i : Nat) (f : φ → α × φ) :
    (s.modifyFrame i f).2.depth = s.depth := by
  rw [modifyFrame]
  cases s.frame? i with
  | none => rfl
  | some frame => exact s.depth_setFrame i _

/-- Changing the frames of a walk one by one keeps the depth. -/
theorem depth_changeWhileAmong (step : σ → φ → Option (φ × σ)) (n : Nat) (s : Stack φ) (state : σ) :
    (changeWhileAmong step n s state).2.depth = s.depth := by
  induction n generalizing s state with
  | zero => rfl
  | succ n ih =>
      rw [changeWhileAmong]
      cases s.frame? n with
      | none => exact ih s state
      | some frame =>
          dsimp only
          cases step state frame with
          | none => rfl
          | some found => exact (ih _ _).trans (s.depth_setFrame n _)

end Stack

namespace Rows

/-! ## Requests that stay with one stack -/

mutual

/-- Neither the request nor a request in it goes back to a saved copy or makes a second stack. -/
def Command.Onward : Command → Prop
  | .restore _ => False
  | .equalsOther _ _ => False
  | .rounds _ body => Command.AllOnward body
  | _ => True

/-- This holds for all requests of a list. -/
def Command.AllOnward : List Command → Prop
  | [] => True
  | command :: rest => command.Onward ∧ Command.AllOnward rest

end

namespace Session

/-! ## The attempts of a request -/

variable {α β : Type}

/-- The attempts of a computation, depending on the session that it begins in. -/
abbrev Attempts :=
  Session → List Attempt

/-- The attempts of a computation and then those of what comes after it. -/
def Attempts.andThen (first : Attempts) (m : Run α) (next : Attempts) : Attempts := fun s =>
  first s ++ next (m s).2

/-- The attempts of the given number of rounds of a body. -/
def roundsAttempts (body : Run α) (attempts : Attempts) : Nat → Attempts
  | 0 => fun _ => []
  | n + 1 => (roundsAttempts body attempts n).andThen (rounds body n) attempts

mutual

/-- The attempts of a request. -/
def attempts : Command → Attempts
  | .push _ => fun _ => [.push]
  | .pop => fun s => [.pop s.stack.pop.1.isOk]
  | .rounds n body => roundsAttempts (execAll body) (attemptsAll body) n
  | _ => fun _ => []

/-- The attempts of a list of requests. -/
def attemptsAll : List Command → Attempts
  | [] => fun _ => []
  | command :: rest => (attempts command).andThen (exec command) (attemptsAll rest)

end

/-! ## Computations and their logs -/

/-- A computation is run on the session that the one before it has left. -/
theorem bind_apply (m : Run α) (f : α → Run β) (s : Session) : (m >>= f) s = f (m s).1 (m s).2 :=
  rfl

/-- What is done next may depend on the session as it is. -/
theorem bind_get (f : Session → Run α) (s : Session) : (get >>= f) s = f s s :=
  rfl

/-- A pop is recorded with the depth after it. -/
theorem pop_of_ok {s : Session} {row : Row} {rest : Stack Row} (h : s.stack.pop = (.ok row, rest)) :
    pop s = (.ok row, { s with stack := rest, log := s.log.push (.popped rest.depth) }) := by
  have hchange : change Stack.pop s = (.ok row, { s with stack := rest }) := by
    rw [change, h]
  rw [pop, bind_apply, hchange]
  rfl

/-- A pop that is refused is recorded as such, and leaves what the stack leaves. -/
theorem pop_of_error {s : Session} {e : Error} {rest : Stack Row}
    (h : s.stack.pop = (.error e, rest)) :
    pop s = (.error e, { s with stack := rest, log := s.log.push .refused }) := by
  have hchange : change Stack.pop s = (.error e, { s with stack := rest }) := by
    rw [change, h]
  rw [pop, bind_apply, hchange]
  rfl

/-- What a computation records recounts its attempts, from the depth before to the depth after. -/
def Logs (m : Run α) (attempts : Attempts) : Prop :=
  ∀ s, ∃ log, (m s).2.log.toList = s.log.toList ++ log ∧
    Recounts s.stack.depth (attempts s) log (m s).2.stack.depth

namespace Logs

/-- A computation that neither writes to the log nor changes the depth makes no attempts. -/
theorem of_eq {m : Run α} (hlog : ∀ s, (m s).2.log = s.log)
    (hdepth : ∀ s, (m s).2.stack.depth = s.stack.depth) : Logs m fun _ => [] := by
  intro s
  refine ⟨[], ?_, ?_⟩
  · rw [hlog, List.append_nil]
  · rw [hdepth]
    exact .nil _

theorem pure (a : α) : Logs (Pure.pure a) fun _ => [] :=
  of_eq (fun _ => rfl) fun _ => rfl

theorem ask (f : Stack Row → α) : Logs (Session.ask f) fun _ => [] :=
  of_eq (fun _ => rfl) fun _ => rfl

/-- Changing the stack without changing its depth makes no attempts. -/
theorem change {f : Stack Row → α × Stack Row} (hf : ∀ stack, (f stack).2.depth = stack.depth) :
    Logs (Session.change f) fun _ => [] :=
  of_eq (fun _ => rfl) fun s => hf s.stack

/-- The attempts of two computations are made one after the other. -/
theorem bind {m : Run α} {f : α → Run β} {first next : Attempts} (hm : Logs m first)
    (hf : ∀ a, Logs (f a) next) : Logs (m >>= f) (first.andThen m next) := by
  intro s
  obtain ⟨log, hlog, hfirst⟩ := hm s
  obtain ⟨log', hlog', hnext⟩ := hf (m s).1 (m s).2
  refine ⟨log ++ log', ?_, hfirst.append hnext⟩
  rw [← List.append_assoc, ← hlog]
  exact hlog'

/-- Mapping the answer makes no attempts of its own. -/
theorem map {m : Run α} {attempts : Attempts} (hm : Logs m attempts) (f : α → β) :
    Logs (f <$> m) attempts :=
  hm

/-- If nothing is attempted afterwards, the attempts are those of the first computation. -/
theorem bind_silent {m : Run α} {f : α → Run β} {attempts : Attempts} (hm : Logs m attempts)
    (hf : ∀ a, Logs (f a) fun _ => []) : Logs (m >>= f) attempts := by
  intro s
  have h := bind hm hf s
  rwa [Attempts.andThen, List.append_nil] at h

/-- A push is an attempt to push. -/
theorem push (row : Row) : Logs (Session.push row) fun _ => [.push] := by
  intro s
  have hdepth := s.stack.depth_push row
  refine ⟨[.pushed (s.stack.push row).depth], Array.toList_push, ?_⟩
  change Recounts _ _ _ (s.stack.push row).depth
  rw [hdepth]
  exact .push _

/-- A pop is an attempt to pop, which succeeds if the stack gives a frame away. -/
theorem pop : Logs Session.pop fun s => [.pop s.stack.pop.1.isOk] := by
  intro s
  dsimp only
  rcases s.stack.recounts_pop with ⟨frame, rest, hpop, hlog⟩ | ⟨hpop, hlog⟩
  · rw [pop_of_ok hpop, hpop]
    exact ⟨_, Array.toList_push, hlog⟩
  · rw [pop_of_error hpop, hpop]
    exact ⟨_, Array.toList_push, hlog⟩

/-- The attempts of several rounds are those of the rounds in order. -/
theorem rounds {body : Run α} {attempts : Attempts} (hbody : Logs body attempts) (n : Nat) :
    Logs (LexicalScope.rounds body n) (roundsAttempts body attempts n) := by
  induction n with
  | zero => exact pure none
  | succ n ih => exact bind ih fun _ => hbody.map some

end Logs

mutual

/-- The log of a request recounts its attempts. -/
theorem logs_exec : ∀ command : Command, command.Onward → Logs (exec command) (attempts command)
  | .push row, _ => by
      rw [exec]
      exact (Logs.push row).bind_silent fun _ => Logs.pure Answer.done
  | .pop, _ => by
      rw [exec]
      exact Logs.pop.map _
  | .topPush n, _ => by
      rw [exec]
      exact (Logs.change fun stack => stack.depth_modifyTop _).bind_silent
        fun _ => Logs.pure Answer.done
  | .topReplace row, _ => by
      rw [exec]
      exact (Logs.change fun stack => stack.depth_modifyTop _).map _
  | .framePush index n, _ => by
      rw [exec]
      refine (Logs.change fun stack => ?_).map _
      exact stack.depth_modifyFrame index fun row => ((), row.push n)
  | .markAll first limit, _ => by
      rw [exec]
      exact (Logs.change fun stack => Stack.depth_changeWhileAmong _ _ stack _).map _
  | .markBelow index first limit, _ => by
      rw [exec]
      exact (Logs.change fun stack => Stack.depth_changeWhileAmong _ _ stack _).map _
  | .save, _ => by
      rw [exec]
      exact .of_eq (fun _ => rfl) fun _ => rfl
  | .equalsSaved copy, _ => by
      have hsame : ∀ s, (exec (.equalsSaved copy) s).2 = s := by
        intro s
        rw [exec, bind_get]
        cases s.saved[copy]? <;> rfl
      exact .of_eq (fun s => by rw [hsame]) fun s => by rw [hsame]
  | .rounds n body, hbody => by
      rw [exec]
      refine (Logs.rounds (logs_execAll body hbody) n).bind_silent fun last => ?_
      cases last <;> exact Logs.pure _
  | .depth, _ | .root, _ | .top, _ | .topIsRoot, _ | .frame _, _ => by
      rw [exec]
      exact (Logs.ask _).map _
  | .walk _, _ | .walkBelow _ _, _ | .position _, _ | .display _, _ => by
      rw [exec]
      exact Logs.ask _

/-- A list of commands logs the attempts of its commands in order. -/
theorem logs_execAll :
    ∀ commands, Command.AllOnward commands → Logs (execAll commands) (attemptsAll commands)
  | [], _ => by
      rw [execAll]
      exact Logs.pure _
  | command :: rest, ⟨hcommand, hrest⟩ => by
      rw [execAll]
      exact Logs.bind (logs_exec command hcommand) fun answer =>
        (logs_execAll rest hrest).bind_silent fun answers => Logs.pure (answer :: answers)

end

/-! ## Runs of requests -/

/-- What is recorded in the steps of a run. -/
def logOf (reports : List Report) : List Event :=
  reports.flatMap fun report => report.after.log.toList

/-- The attempts of a run of requests; before each request the events are cleared. -/
def runAttempts : List Command → Attempts
  | [] => fun _ => []
  | command :: rest => fun s =>
    attempts command { s with log := #[] } ++ runAttempts rest (step command s).after

/--
The log of a step, read on its own, tells of the attempts of the command and of the depth after
it.
-/
theorem recounts_step {command : Command} (h : command.Onward) (s : Session) :
    Recounts s.stack.depth (attempts command { s with log := #[] })
      (step command s).after.log.toList (step command s).after.stack.depth := by
  obtain ⟨log, hlog, hstep⟩ := logs_exec command h { s with log := #[] }
  rw [List.nil_append] at hlog
  change Recounts _ _ (exec command { s with log := #[] }).2.log.toList _
  rw [hlog]
  exact hstep

/-- The logs of all steps, read one after the other, tell of all attempts and of the last depth. -/
theorem recounts_run {program : List Command} (h : Command.AllOnward program) (s : Session) :
    Recounts s.stack.depth (runAttempts program s) (logOf (run program s).1)
      (run program s).2.stack.depth := by
  induction program generalizing s with
  | nil => exact .nil _
  | cons command rest ih => exact (recounts_step h.1 s).append (ih h.2 (step command s).after)

/-- The first steps of a run are the run of the first requests. -/
theorem run_take {program : List Command} {s : Session} {n : Nat} {report : Report}
    (h : (run program s).1[n]? = some report) :
    run (program.take (n + 1)) s = ((run program s).1.take (n + 1), report.after) := by
  induction program generalizing s n with
  | nil => cases h
  | cons command rest ih =>
      cases n with
      | zero =>
          cases h
          rfl
      | succ n =>
          have hrest := ih (s := (step command s).after) h
          rw [List.take_succ_cons, run, hrest]
          rfl

/-- If all commands go onward, so do the first ones. -/
theorem allOnward_take {program : List Command} (h : Command.AllOnward program) (n : Nat) :
    Command.AllOnward (program.take n) := by
  induction program generalizing n with
  | nil =>
      rw [List.take_nil]
      exact trivial
  | cons command rest ih =>
      cases n with
      | zero => exact trivial
      | succ n => exact ⟨h.1, ih h.2 n⟩

/-- Logs recount the attempts of a run of requests. -/
structure LogsRecount (program : List Command) (s : Session) : Prop where
  /--
  After each step, what was recorded up to then recounts the attempts up to then, and leads to
  the depth after the step.
  -/
  reports : ∀ n report, (run program s).1[n]? = some report →
    Recounts 1 (runAttempts (program.take (n + 1)) s) (logOf ((run program s).1.take (n + 1)))
      report.after.stack.depth
  /-- The depth is positive, and there are as many frames. -/
  frames : ∀ report ∈ (run program s).1, 0 < report.after.stack.depth ∧
    report.after.stack.toList.length = report.after.stack.depth

/-- From the start the logs of a program that goes onward recount what happens to its stack. -/
theorem logsRecount_start {program : List Command} (h : Command.AllOnward program) (init : Start) :
    LogsRecount program (start init) where
  reports := by
    intro n report hreport
    have hdepth : (start init).stack.depth = 1 := by cases init <;> rfl
    have hrun := recounts_run (allOnward_take h (n + 1)) (start init)
    rwa [run_take hreport, hdepth] at hrun
  frames := fun report _ => ⟨report.after.stack.depth_pos, report.after.stack.length_toList⟩

end Session
end Rows
end LexicalScope
