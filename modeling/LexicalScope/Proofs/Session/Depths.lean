import LexicalScope.Proofs.Rows.Depths
import LexicalScope.Proofs.Session.Confinement
import LexicalScope.Proofs.Session.Everywhere
import LexicalScope.Value

/-!
# Logs of sessions with a chain

In a session with a chain the depth changes by pushes and pops alone, unless the session
goes back to a saved copy: requests about keys keep it.  Every push is recorded, that of a
scope as any other, and so is every attempt to pop, those of the clean-up of a scope
included; and nothing else is recorded unless a second chain is made.  So the log of a run
recounts its attempts, at whatever depth of nesting they are made, and also if a fault ends a
step in the middle of its scopes.

Main results:

- Theorem {lit}`Session.Step.recounts_after`: the log of a single step.
- Theorem {lit}`Session.recounts_replay`: what a list of steps records recounts its attempts.
- Theorem {lit}`Session.recounts_answers`: within a list of commands, the depth that is noted
  with each answer is the one that the log then leads to.
- Theorem {lit}`Session.logs_recount`: the logs of runs recount their attempts, for bindings,
  for names and for rows.
-/

namespace LexicalScope

variable {ε ι ρ κ ν : Type} [BEq κ]

/-! ## Requests keep the depth -/

/-- A request about keys neither adds a frame nor takes one off. -/
def Dialect.KeepsDepth [Entry ε κ] (dialect : Dialect ε ι ρ) : Prop :=
  ∀ request (c : Chain ε), (dialect.fulfil request c).2.depth = c.depth

/-- No request to a chain of bindings changes the depth. -/
theorem BindingRequest.keepsDepth [Ord κ] [BEq ν] [Display κ] [Display ν] :
    (dialect : Dialect (Binding κ ν) _ _).KeepsDepth :=
  fun request c => (writesTo_target request c).depth_eq

/-- No request to a chain of names changes the depth. -/
theorem NameRequest.keepsDepth [Display κ] : (dialect : Dialect (Member κ) _ _).KeepsDepth :=
  fun request c => (writesTo_target request c).depth_eq

/-- The command neither goes back to a saved copy nor makes a second chain. -/
def Command.Onward : Command ε ι → Prop
  | .restore _ => False
  | .equalsOther _ _ _ => False
  | _ => True

namespace Session

variable [Entry ε κ] {dialect : Dialect ε ι ρ}

/-! ## The attempts of a list of steps -/

namespace Step

/-- What the step does to the depth, or would have done. -/
def attempts (step : Step ε ι) (s : Session ε) : List Attempt :=
  match step with
  | .push _ => [.push]
  | .pop | .take => [.pop s.chain.pop.1.isOk]
  | .keyed _ | .save | .restore _ | .record _ => []

/-- The step neither goes back to a saved copy nor records what happened to a second chain. -/
def Onward : Step ε ι → Prop
  | .restore _ => False
  | .record _ => False
  | _ => True

end Step

/-- The attempts of a list of steps, depending on the session that it begins in. -/
def attempts (dialect : Dialect ε ι ρ) : List (Step ε ι) → Session ε → List Attempt
  | [], _ => []
  | step :: rest, s => step.attempts s ++ attempts dialect rest (step.after dialect s)

/--
The attempts of steps in a row are those of the first ones and, after them, those of the others.
-/
theorem attempts_append (first second : List (Step ε ι)) (s : Session ε) :
    attempts dialect (first ++ second) s =
      attempts dialect first s ++ attempts dialect second (replay dialect first s) := by
  induction first generalizing s with
  | nil => rfl
  | cons step first ih =>
      rw [List.cons_append, attempts, ih, ← List.append_assoc]
      rfl

/-- A pop, refused or not, adds to the log what tells of it. -/
theorem recounts_afterPop (s : Session ε) :
    ∃ log, s.afterPop.log.toList = s.log.toList ++ log ∧
      Recounts s.chain.depth [.pop s.chain.pop.1.isOk] log s.afterPop.chain.depth := by
  rcases s.chain.stack.recounts_pop with ⟨frame, rest, hpop, hlog⟩ | ⟨hpop, hlog⟩
  · have hchain : s.chain.pop = (.ok frame, { s.chain with stack := rest }) := by
      simp only [Chain.pop, hpop]
    rw [afterPop, hchain]
    exact ⟨_, Array.toList_push, hlog⟩
  · have hchain : s.chain.pop = (.error .underflow, s.chain) := by
      simp only [Chain.pop, hpop]
    rw [afterPop, hchain]
    exact ⟨_, Array.toList_push, hlog⟩

/-- What a step records recounts what it does to the depth. -/
theorem Step.recounts_after (hdialect : dialect.KeepsDepth) {step : Step ε ι} (h : step.Onward)
    (s : Session ε) :
    ∃ log, (step.after dialect s).log.toList = s.log.toList ++ log ∧
      Recounts s.chain.depth (step.attempts s) log (step.after dialect s).chain.depth := by
  cases step with
  | keyed request =>
      refine ⟨[], (List.append_nil _).symm, ?_⟩
      change Recounts _ _ _ (dialect.fulfil request s.chain).2.depth
      rw [hdialect]
      exact .nil _
  | push frame =>
      refine ⟨_, Array.toList_push, ?_⟩
      change Recounts _ _ _ (s.chain.pushFrame frame).depth
      rw [Chain.depth_pushFrame]
      exact .push _
  | pop | take => exact recounts_afterPop s
  | save => exact ⟨[], (List.append_nil _).symm, .nil _⟩
  | restore copy | record log => exact h.elim

/-- What a list of steps records recounts what it does to the depth. -/
theorem recounts_replay (hdialect : dialect.KeepsDepth) {steps : List (Step ε ι)}
    (h : ∀ step ∈ steps, step.Onward) (s : Session ε) :
    ∃ log, (replay dialect steps s).log.toList = s.log.toList ++ log ∧
      Recounts s.chain.depth (attempts dialect steps s) log
        (replay dialect steps s).chain.depth := by
  induction steps generalizing s with
  | nil => exact ⟨[], (List.append_nil _).symm, .nil _⟩
  | cons step rest ih =>
      obtain ⟨log, hlog, hstep⟩ :=
        Step.recounts_after hdialect (h step List.mem_cons_self) s
      obtain ⟨log', hlog', hrest⟩ :=
        ih (fun step hmem => h step (List.mem_cons_of_mem _ hmem)) (step.after dialect s)
      refine ⟨log ++ log', ?_, hstep.append hrest⟩
      rw [← List.append_assoc, ← hlog]
      exact hlog'

/-! ## The steps of commands that stay with one chain -/

/-- All steps of a computation satisfy a condition. -/
def Trace.All (p : Step ε ι → Prop) (trace : Trace ε ι) : Prop :=
  ∀ s, ∀ step ∈ trace s, p step

namespace Trace.All

variable {p : Step ε ι → Prop} {α : Type} {first : Trace ε ι} {m : Run ε α}
  {next : α → Trace ε ι}

theorem nil : All p fun _ => [] :=
  fun _ _ h => nomatch h

/-- A single step satisfies a condition that all such steps satisfy. -/
theorem single {f : Session ε → Step ε ι} (h : ∀ s, p (f s)) : All p fun s => [f s] := by
  intro s step hmem
  rw [List.mem_singleton.mp hmem]
  exact h s

/-- If both parts of a computation satisfy a condition, so do they one after the other. -/
theorem andThen (hfirst : All p first) (hnext : ∀ a, All p (next a)) :
    All p (first.andThen m next) := by
  intro s step hmem
  rcases List.mem_append.mp hmem with hmem | hmem
  · exact hfirst s step hmem
  · cases h : m s with
    | ok a middle =>
        rw [h] at hmem
        exact hnext a middle step hmem
    | error fault middle =>
        rw [h] at hmem
        cases hmem

/-- Repeated pops satisfy a condition that a pop satisfies. -/
theorem popTimes (hpop : p .pop) (n : Nat) : All p (popTimesTrace n) := by
  induction n with
  | zero => exact nil
  | succ n ih =>
      refine andThen (single fun _ => hpop) fun outcome => ?_
      cases outcome with
      | ok frame => exact ih
      | error e => exact nil

/-- A scope satisfies a condition that its push, its body and its pops satisfy. -/
theorem scope {body : Run ε α} {trace : Trace ε ι} (hpush : ∀ frame, p (.push frame))
    (hpop : p .pop) (htrace : All p trace) : All p (scopeTrace body trace) := by
  intro s
  exact andThen (single fun _ => hpush _) (fun _ => htrace.andThen fun _ inner =>
    popTimes hpop (inner.chain.depth - s.chain.depth) inner) s

/-- Several scopes satisfy a condition that their pushes, their body and their pops satisfy. -/
theorem scopes {body : Run ε α} {trace : Trace ε ι} (hpush : ∀ frame, p (.push frame))
    (hpop : p .pop) (htrace : All p trace) (n : Nat) : All p (scopesTrace body trace n) := by
  induction n with
  | zero => exact htrace
  | succ n ih => exact scope hpush hpop ih

/-- Several rounds satisfy a condition that their body satisfies. -/
theorem rounds {body : Run ε α} {trace : Trace ε ι} (htrace : All p trace) (n : Nat) :
    All p (roundsTrace body trace n) := by
  induction n with
  | zero => exact nil
  | succ n ih => exact andThen ih fun _ => htrace

end Trace.All

variable [Ord κ]

mutual

/-- The steps of a command that stays with one chain do so too. -/
theorem onward_steps (dialect : Dialect ε ι ρ) : ∀ command : Command ε ι,
    command.Everywhere Command.Onward → Trace.All Step.Onward (steps dialect command)
  | .scope body, h => .scope (fun _ => trivial) trivial (onward_stepsAll dialect body h.2)
  | .nest n body, h => .scopes (fun _ => trivial) trivial (onward_stepsAll dialect body h.2) n
  | .rounds n body, h => .rounds (onward_stepsAll dialect body h.2) n
  | .pushPopped, _ => by
      intro s step hmem
      rcases Option.map_eq_some_iff.mp (Option.mem_toList.mp hmem) with ⟨frame, -, rfl⟩
      exact trivial
  | .keyed _, _ | .push, _ | .pushFrame _ _, _ | .pop, _ | .save, _ => .single fun _ => trivial
  | .depth, _ | .hashers, _ | .root, _ | .top, _ | .frame _, _ | .frames, _ => .nil
  | .framesBelow _, _ | .positionOfSize _, _ | .visible, _ | .visibleFrames _, _ => .nil
  | .visibleHints, _ | .display _, _ | .equalsSaved _, _ | .stackEqualsSaved _, _ => .nil

/-- The steps of commands that go onward go onward. -/
theorem onward_stepsAll (dialect : Dialect ε ι ρ) : ∀ commands : List (Command ε ι),
    Command.AllEverywhere Command.Onward commands →
      Trace.All Step.Onward (stepsAll dialect commands)
  | [], _ => .nil
  | command :: rest, h =>
    .andThen (onward_steps dialect command h.1) fun _ => onward_stepsAll dialect rest h.2

end

/-! ## Commands within a list -/

/-- What a list of commands records recounts its attempts, also if a fault ends it. -/
theorem recounts_execAll (hdialect : dialect.KeepsDepth) {commands : List (Command ε ι)}
    (h : Command.AllEverywhere Command.Onward commands) (s : Session ε) :
    ∃ log, (lastOf (execAll dialect commands s)).log.toList = s.log.toList ++ log ∧
      Recounts s.chain.depth (attempts dialect (stepsAll dialect commands s) s) log
        (lastOf (execAll dialect commands s)).chain.depth := by
  rw [traces_execAll dialect commands s]
  exact recounts_replay hdialect (onward_stepsAll dialect commands h s) s

/-- After a command that is not a fault, a list goes on with the rest of its commands. -/
theorem execAll_cons_of_ok {command : Command ε ι} {s middle : Session ε} {answer : Answer ε ρ}
    (h : exec dialect command s = .ok answer middle) (rest : List (Command ε ι)) :
    execAll dialect (command :: rest) s =
      ((fun answers => (answer, middle.chain.depth) :: answers) <$>
        execAll dialect rest) middle := by
  rw [execAll]
  simp only [Bind.bind, EStateM.bind, h]
  rfl

/-- If a list of commands runs to its end, its first command does so, and then the others do. -/
theorem execAll_cons_eq_ok {command : Command ε ι} {rest : List (Command ε ι)}
    {s last : Session ε} {answers : List (Answer ε ρ × Nat)}
    (h : execAll dialect (command :: rest) s = .ok answers last) :
    ∃ answer middle others, exec dialect command s = .ok answer middle ∧
      execAll dialect rest middle = .ok others last ∧
        answers = (answer, middle.chain.depth) :: others := by
  cases hcommand : exec dialect command s with
  | error fault middle =>
      rw [execAll] at h
      simp only [Bind.bind, EStateM.bind, hcommand] at h
      cases h
  | ok answer middle =>
      rw [execAll_cons_of_ok hcommand] at h
      simp only [Functor.map, EStateM.map] at h
      cases hrest : execAll dialect rest middle with
      | error fault end_ =>
          rw [hrest] at h
          cases h
      | ok others end_ =>
          rw [hrest] at h
          cases h
          exact ⟨answer, middle, others, rfl, hrest, rfl⟩

/-- The first commands of a list answer as they do in it, and end at the depth that is noted. -/
theorem execAll_take {commands : List (Command ε ι)} {s last : Session ε}
    {answers : List (Answer ε ρ × Nat)} (h : execAll dialect commands s = .ok answers last)
    {n : Nat} {answer : Answer ε ρ} {depth : Nat} (hn : answers[n]? = some (answer, depth)) :
    ∃ middle, execAll dialect (commands.take (n + 1)) s = .ok (answers.take (n + 1)) middle ∧
      middle.chain.depth = depth := by
  induction commands generalizing s answers n with
  | nil =>
      cases h
      cases hn
  | cons command rest ih =>
      rcases execAll_cons_eq_ok h with ⟨first, middle, others, hcommand, hrest, rfl⟩
      rw [List.take_succ_cons, execAll_cons_of_ok hcommand]
      cases n with
      | zero =>
          cases hn
          exact ⟨middle, rfl, rfl⟩
      | succ n =>
          obtain ⟨inner, htake, hdepth⟩ := ih hrest hn
          refine ⟨inner, ?_, hdepth⟩
          simp only [Functor.map, EStateM.map, htake, List.take_succ_cons]

/-! ## Runs of commands -/

/-- What is recorded in the steps of a run. -/
def logOf (reports : List (Report ε ρ)) : List Event :=
  reports.flatMap fun report => report.after.log.toList

/--
The log of a step, read on its own, tells of the attempts of the command and of the depth after
it.
-/
theorem recounts_step (hdialect : dialect.KeepsDepth) {command : Command ε ι}
    (h : command.Everywhere Command.Onward) (s : Session ε) :
    Recounts s.chain.depth
      (attempts dialect (.record #[] :: steps dialect command { s with log := #[] }) s)
      (step dialect command s).after.log.toList (step dialect command s).after.chain.depth := by
  obtain ⟨log, hlog, hstep⟩ := recounts_replay hdialect (onward_steps dialect command h _)
    ({ s with log := #[] })
  rw [← traces_exec, ← after_step_eq_lastOf] at hlog hstep
  rw [List.nil_append] at hlog
  rw [hlog]
  exact hstep

/-- The logs of all steps, read one after the other, tell of all attempts and of the last depth. -/
theorem recounts_run (hdialect : dialect.KeepsDepth) {program : List (Command ε ι)}
    (h : Command.AllEverywhere Command.Onward program) (s : Session ε) :
    Recounts s.chain.depth (attempts dialect (runSteps dialect program s) s)
      (logOf (run dialect program s).1) (run dialect program s).2.chain.depth := by
  induction program generalizing s with
  | nil => exact .nil _
  | cons command rest ih =>
      have hafter : (step dialect command s).after =
          replay dialect (.record #[] :: steps dialect command { s with log := #[] }) s :=
        (after_step_eq_lastOf dialect command s).trans (traces_exec dialect command _)
      rw [runSteps, attempts_append, ← hafter]
      exact (recounts_step hdialect h.1 s).append (ih h.2 (step dialect command s).after)

/-- The first steps of a run are the run of the first commands. -/
theorem run_take {program : List (Command ε ι)} {s : Session ε} {n : Nat} {report : Report ε ρ}
    (h : (run dialect program s).1[n]? = some report) :
    run dialect (program.take (n + 1)) s =
      ((run dialect program s).1.take (n + 1), report.after) := by
  induction program generalizing s n with
  | nil => cases h
  | cons command rest ih =>
      cases n with
      | zero =>
          cases h
          rfl
      | succ n =>
          have hrest := ih (s := (step dialect command s).after) h
          rw [List.take_succ_cons, run, hrest]
          rfl

omit [BEq κ] [Entry ε κ] [Ord κ] in
/-- A condition that holds everywhere in a list of commands does so in the first ones. -/
theorem allEverywhere_take {p : Command ε ι → Prop} {commands : List (Command ε ι)}
    (h : Command.AllEverywhere p commands) (n : Nat) :
    Command.AllEverywhere p (commands.take n) := by
  induction commands generalizing n with
  | nil =>
      rw [List.take_nil]
      exact trivial
  | cons command rest ih =>
      cases n with
      | zero => exact trivial
      | succ n => exact ⟨h.1, ih h.2 n⟩

omit [Ord κ] in
theorem depth_start (hasher : Hasher) (init : Start ε) : (start hasher init).chain.depth = 1 := by
  cases init <;> rfl

/-- Logs recount the attempts of a list of commands, as a program and as the body of a command. -/
structure LogsRecount (dialect : Dialect ε ι ρ) (program : List (Command ε ι)) (s : Session ε) :
    Prop where
  /--
  After each step, what was recorded up to then recounts the attempts up to then, and leads to
  the depth after the step.
  -/
  reports : ∀ n report, (run dialect program s).1[n]? = some report →
    Recounts 1 (attempts dialect (runSteps dialect (program.take (n + 1)) s) s)
      (logOf ((run dialect program s).1.take (n + 1))) report.after.chain.depth
  /-- The depth is positive, and there are as many frames. -/
  frames : ∀ report ∈ (run dialect program s).1, 0 < report.after.chain.depth ∧
    report.after.chain.stack.toList.length = report.after.chain.depth
  /-- Within a command, the depth noted with an answer is the one that the log then leads to. -/
  answers : ∀ (t last : Session ε) (answers : List (Answer ε ρ × Nat)),
    execAll dialect program t = .ok answers last → ∀ n answer depth,
      answers[n]? = some (answer, depth) → ∃ middle log,
        execAll dialect (program.take (n + 1)) t = .ok (answers.take (n + 1)) middle ∧
        middle.log.toList = t.log.toList ++ log ∧
        Recounts t.chain.depth (attempts dialect (stepsAll dialect (program.take (n + 1)) t) t)
          log depth

/-- From the start the logs of a program that goes onward recount what happens to its chain. -/
theorem logsRecount_start (hdialect : dialect.KeepsDepth) {program : List (Command ε ι)}
    (h : Command.AllEverywhere Command.Onward program) (hasher : Hasher) (init : Start ε) :
    LogsRecount dialect program (start hasher init) where
  reports := by
    intro n report hreport
    have hrun := recounts_run hdialect (allEverywhere_take h (n + 1)) (start hasher init)
    rwa [run_take hreport, depth_start] at hrun
  frames := fun report _ =>
    ⟨report.after.chain.stack.depth_pos, report.after.chain.stack.length_toList⟩
  answers := by
    intro t last answers hexec n answer depth hn
    obtain ⟨middle, htake, hdepth⟩ := execAll_take hexec hn
    obtain ⟨log, hlog, hrecounts⟩ :=
      recounts_execAll hdialect (allEverywhere_take h (n + 1)) t
    rw [htake, lastOf_ok] at hlog hrecounts
    rw [hdepth] at hrecounts
    exact ⟨middle, log, htake, hlog, hrecounts⟩

/-! ## All kinds of sessions -/

/--
In every run from a start, on a chain of bindings, on a chain of names or on a stack of rows, in
which no command goes back to a saved copy or makes a second chain, what is recorded up to the
end of a step recounts the pushes and the attempts to pop that were made, those of scopes and
their clean-up included, and leads to the depth after the step, also if the step was given up.
-/
theorem logs_recount [BEq ν] [Display κ] [Display ν] :
    (∀ (hasher : Hasher) (init : Start (Binding κ ν))
      (program : List (Command (Binding κ ν) (BindingRequest κ ν))),
      Command.AllEverywhere Command.Onward program →
        LogsRecount BindingRequest.dialect program (start hasher init)) ∧
    (∀ (hasher : Hasher) (init : Start (Member κ))
      (program : List (Command (Member κ) (NameRequest κ))),
      Command.AllEverywhere Command.Onward program →
        LogsRecount NameRequest.dialect program (start hasher init)) ∧
    (∀ (init : Rows.Start) (program : List Rows.Command), Rows.Command.AllOnward program →
      Rows.Session.LogsRecount program (Rows.Session.start init)) :=
  ⟨fun hasher init _ h => logsRecount_start BindingRequest.keepsDepth h hasher init,
    fun hasher init _ h => logsRecount_start NameRequest.keepsDepth h hasher init,
    fun init _ h => Rows.Session.logsRecount_start h init⟩

/--
Runs that are refused a pop, open scopes whose bodies leave frames above and below the depth at
the start, and, on bindings, give up a step in two scopes, which stay open.
-/
theorem logs_recount_unwound :
    let bindings : List (Command (Binding Int64 Value) (BindingRequest Int64 Value)) :=
      [.pop, .scope [.push, .keyed (.declare 7 .null), .scope [.pop, .pop]], .save,
        .nest 2 [.keyed (.demand 7)], .rounds 2 [.pop]]
    let names : List (Command (Member Int64) (NameRequest Int64)) :=
      [.pushFrame [⟨7⟩] none, .pop, .pushPopped, .scope [.pop, .pop, .pop]]
    let rows : List Rows.Command := [.push (.ofList [1]), .rounds 2 [.topPush 3, .pop], .depth]
    (LogsRecount BindingRequest.dialect bindings (start .standard .empty) ∧
      logOf (run BindingRequest.dialect bindings (start .standard .empty)).1 =
        [.refused, .pushed 2, .pushed 3, .pushed 4, .popped 3, .popped 2, .popped 1, .pushed 2,
          .pushed 3, .popped 2, .popped 1]) ∧
    (LogsRecount NameRequest.dialect names (start .standard .empty) ∧
      (run NameRequest.dialect names (start .standard .empty)).2.chain.depth = 1) ∧
    (Rows.Session.LogsRecount rows (Rows.Session.start .empty) ∧
      Rows.Session.logOf (Rows.Session.run rows (Rows.Session.start .empty)).1 =
        [.pushed 2, .popped 1, .refused]) := by
  intro bindings names rows
  rcases logs_recount (κ := Int64) (ν := Value) with ⟨hbindings, hnames, hrows⟩
  have hb : Command.AllEverywhere Command.Onward bindings := by
    simp [bindings, Command.AllEverywhere, Command.Everywhere, Command.Onward]
  have hn : Command.AllEverywhere Command.Onward names := by
    simp [names, Command.AllEverywhere, Command.Everywhere, Command.Onward]
  have hr : Rows.Command.AllOnward rows := by
    simp [rows, Rows.Command.AllOnward, Rows.Command.Onward]
  exact ⟨⟨hbindings _ _ _ hb, by decide +kernel⟩, ⟨hnames _ _ _ hn, by decide +kernel⟩,
    hrows _ _ hr, by decide +kernel⟩

end Session
end LexicalScope
