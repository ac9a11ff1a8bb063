import Mathlib.Computability.StateTransition
import LexicalScope.Proofs.Session.Unwinding

/-!
# Moments of a run

A run can be followed moment by moment.  A moment is the session as it is and a list of what is
still to be done: commands to run, scopes to end, second chains to leave.  Every moment leads to
the next one by a single operation, which does the first task and may put others in its place:
a scope becomes a push, its body and the task to end it.  Nothing is nested any more, so all that
encloses an operation can be seen in the tasks that are left behind it.

A run that comes to an end has no task left.  A run that is ended by a fault has come to a
moment that has no next one: its first task is a request that is a fault, and the other tasks
are never done.

Main results:

- Theorem {lit}`Session.exec_eq_ok_iff`: a command is carried out if and only if its moments lead
  to one without tasks, in the session in which the command ends.
- Theorem {lit}`Session.exec_eq_error_iff`: a command is ended by a fault if and only if its
  moments lead to that fault.
- Theorem {lit}`Moment.compared_of_reaches`: a session that is left for a second chain is the one
  at the moment of the comparison.
-/

open StateTransition

namespace LexicalScope

variable {ε ι ρ κ α β : Type} [Entry ε κ] [BEq κ]

/-! ## Tasks and moments -/

/-- Something that is still to be done. -/
inductive Task (ε ι : Type) {κ : Type} [Entry ε κ] [BEq κ] where
  /-- Run a command. -/
  | run (command : Command ε ι)
  /-- End a scope that began at the depth. -/
  | close (depth : Nat)
  /-- Leave a second chain, and go on with the session that was left for it. -/
  | rejoin (main : Session ε)

/-- The session as it is, and what is still to be done, beginning with the next task. -/
structure Moment (ε ι : Type) {κ : Type} [Entry ε κ] [BEq κ] where
  /-- The session. -/
  session : Session ε
  /-- What is still to be done. -/
  tasks : List (Task ε ι)

namespace Task

/-- The session that is gone on with when a second chain is left. -/
def main? : Task ε ι → Option (Session ε)
  | .run _ => none
  | .close _ => none
  | .rejoin main => some main

/--
What comes of doing the first bit of a task: the session after it, and the tasks that take the
place of this one.  Nothing comes of a request about keys that is a fault.
-/
def begin? (dialect : Dialect ε ι ρ) (s : Session ε) :
    Task ε ι → Option (Session ε × List (Task ε ι))
  | .close depth =>
    if depth < s.chain.depth then some (s.afterPop, [.close depth]) else some (s, [])
  | .rejoin main => some ({ main with log := s.log }, [])
  | .run command =>
    match command with
    | .keyed request =>
      match dialect.fulfil request s.chain with
      | (.ok _, c) => some ({ s with chain := c }, [])
      | (.error _, _) => none
    | .push => some (s.afterPush (.empty s.chain.hasher), [])
    | .pushFrame entries mark => some (s.afterPush (.ofList (s.hasher.withMark mark) entries), [])
    | .pop => some ({ s.afterPop with popped := s.chain.pop.1.toOption.or s.popped }, [])
    | .pushPopped => some (s.popped.elim s s.afterPush, [])
    | .scope body =>
      some (s.afterPush (.empty s.chain.hasher), body.map .run ++ [.close s.chain.depth])
    | .nest 0 body => some (s, body.map .run)
    | .nest (n + 1) body =>
      some (s.afterPush (.empty s.chain.hasher), [.run (.nest n body), .close s.chain.depth])
    | .rounds n body => some (s, (List.replicate n (body.map .run)).flatten)
    | .save => some ({ s with saved := s.saved.push s.chain }, [])
    | .restore copy => some (s.saved[copy]?.elim s fun c => { s with chain := c }, [])
    | .equalsOther start mark body =>
      let hasher := s.hasher.withMark mark
      some (⟨hasher, start.chain hasher, #[], none, s.log⟩, body.map .run ++ [.rejoin s])
    | .depth | .hashers | .root | .top | .frame _ | .frames | .framesBelow _ | .positionOfSize _ =>
      some (s, [])
    | .visible | .visibleFrames _ | .visibleHints | .display _ => some (s, [])
    | .equalsSaved _ | .stackEqualsSaved _ => some (s, [])

end Task

namespace Moment

/-- The sessions that were left for second chains, the innermost first. -/
def mains (tasks : List (Task ε ι)) : List (Session ε) :=
  tasks.filterMap Task.main?

/-- The next moment, unless nothing is left to be done or the next task is a fault. -/
def next? (dialect : Dialect ε ι ρ) : Moment ε ι → Option (Moment ε ι)
  | ⟨_, []⟩ => none
  | ⟨s, task :: rest⟩ => (task.begin? dialect s).map fun (after, tasks) => ⟨after, tasks ++ rest⟩

/-- The next task is a request about keys that is a fault. -/
def Faulty (dialect : Dialect ε ι ρ) (fault : Fault) (m : Moment ε ι) : Prop :=
  ∃ request rest, m.tasks = .run (.keyed request) :: rest ∧
    (dialect.fulfil request m.session.chain).1 = .error fault

/--
What stays if all tasks are given up: the session as it is, but if it belongs to a second
chain, then the session that was left for the outermost one, with the events so far.
-/
def abandoned (m : Moment ε ι) : Session ε :=
  match (mains m.tasks).getLast? with
  | some main => { main with log := m.session.log }
  | none => m.session

/-! ## Basic laws -/

/--
The sessions that wait for tasks in a row are those of the first ones and those of the others.
-/
@[simp]
theorem mains_append (tasks rest : List (Task ε ι)) :
    mains (tasks ++ rest) = mains tasks ++ mains rest :=
  List.filterMap_append

@[simp]
theorem mains_run (body : List (Command ε ι)) : mains (body.map (.run : _ → Task ε ι)) = [] := by
  simp [mains, Task.main?]

@[simp]
theorem mains_close (depth : Nat) : mains [(.close depth : Task ε ι)] = [] :=
  rfl

@[simp]
theorem mains_rejoin (main : Session ε) : mains [(.rejoin main : Task ε ι)] = [main] :=
  rfl

/-- Tasks that no session waits for can be repeated without one. -/
@[simp]
theorem mains_replicate (n : Nat) {tasks : List (Task ε ι)} (h : mains tasks = []) :
    mains (List.replicate n tasks).flatten = [] := by
  induction n with
  | zero => rfl
  | succ n ih => rw [List.replicate_succ, List.flatten_cons, mains_append, h, ih, List.append_nil]

/-- Further tasks that no session waits for do not change what is left of an abandoned moment. -/
theorem abandoned_append (m : Moment ε ι) {rest : List (Task ε ι)} (h : mains rest = []) :
    abandoned ⟨m.session, m.tasks ++ rest⟩ = m.abandoned := by
  rw [abandoned, abandoned, mains_append, h, List.append_nil]

/-- If a session waits last of all, it is what is left, with the events up to then. -/
theorem abandoned_rejoin (m : Moment ε ι) (main : Session ε) :
    abandoned ⟨m.session, m.tasks ++ [.rejoin main]⟩ = { main with log := m.abandoned.log } := by
  have hlog : m.abandoned.log = m.session.log := by
    unfold abandoned
    cases (mains m.tasks).getLast? <;> rfl
  rw [hlog, abandoned, mains_append, mains_rejoin, List.getLast?_concat]

/-- If no session waits, the abandoned session itself is left. -/
theorem abandoned_of_mains_eq_nil {m : Moment ε ι} (h : mains m.tasks = []) :
    m.abandoned = m.session := by
  rw [abandoned, h]
  rfl

/-- Tasks that are behind the first one do not matter for what comes next. -/
theorem next?_append (dialect : Dialect ε ι ρ) (s : Session ε) (task : Task ε ι)
    (rest : List (Task ε ι)) {after : Session ε} {tasks : List (Task ε ι)}
    (h : task.begin? dialect s = some (after, tasks)) :
    next? dialect ⟨s, task :: rest⟩ = some ⟨after, tasks ++ rest⟩ := by
  rw [next?, h]
  rfl

/-- Further tasks do not change the fault. -/
theorem Faulty.append {dialect : Dialect ε ι ρ} {fault : Fault} {m : Moment ε ι}
    (h : m.Faulty dialect fault) (rest : List (Task ε ι)) :
    Faulty dialect fault ⟨m.session, m.tasks ++ rest⟩ := by
  rcases h with ⟨request, others, htasks, hfault⟩
  exact ⟨request, others ++ rest, by rw [htasks]; rfl, hfault⟩

/-- After a fault there is no next moment. -/
theorem Faulty.next? {dialect : Dialect ε ι ρ} {fault : Fault} {m : Moment ε ι}
    (h : m.Faulty dialect fault) : m.next? dialect = none := by
  rcases m with ⟨s, tasks⟩
  rcases h with ⟨request, rest, rfl, h⟩
  have hbegin : (Task.run (.keyed request) : Task ε ι).begin? dialect s = none := by
    rw [Task.begin?]
    rcases hs : dialect.fulfil request s.chain with ⟨_ | _, _⟩
    · rfl
    · rw [hs] at h
      cases h
  rw [Moment.next?, hbegin]
  rfl

end Moment

/-- A request about keys that is a fault leaves the chain as it is. -/
def Dialect.FaultsInPlace (dialect : Dialect ε ι ρ) : Prop :=
  ∀ request c fault, (dialect.fulfil request c).1 = .error fault →
    (dialect.fulfil request c).2 = c

namespace Session

/-! ## Tasks that do what a computation does -/

/--
The moments that begin with the tasks in a session lead to what a computation has come to: if
it was carried out, to the session in which it ended with the tasks done, and otherwise to a
fault that, if the other tasks are given up, leaves the session in which it ended.
-/
inductive Performed (dialect : Dialect ε ι ρ) (s : Session ε) (tasks : List (Task ε ι)) :
    EStateM.Result Fault (Session ε) α → Prop where
  | ok (a : α) {after : Session ε}
      (h : ∀ rest, Reaches (Moment.next? dialect) ⟨s, tasks ++ rest⟩ ⟨after, rest⟩) :
      Performed dialect s tasks (.ok a after)
  | error {fault : Fault} (m : Moment ε ι) (hfaulty : m.Faulty dialect fault)
      (h : ∀ rest, Reaches (Moment.next? dialect) ⟨s, tasks ++ rest⟩ ⟨m.session, m.tasks ++ rest⟩) :
      Performed dialect s tasks (.error fault m.abandoned)

/-- Tasks are performed to their end, or up to a fault that abandons the moment. -/
theorem performed_cases {dialect : Dialect ε ι ρ} {s : Session ε} {tasks : List (Task ε ι)}
    {r : EStateM.Result Fault (Session ε) α} (h : Performed dialect s tasks r) :
    (∃ a after, r = .ok a after ∧
      ∀ rest, Reaches (Moment.next? dialect) ⟨s, tasks ++ rest⟩ ⟨after, rest⟩) ∨
    ∃ fault, ∃ m : Moment ε ι, r = .error fault m.abandoned ∧ m.Faulty dialect fault ∧
      ∀ rest, Reaches (Moment.next? dialect) ⟨s, tasks ++ rest⟩ ⟨m.session, m.tasks ++ rest⟩ := by
  cases h with
  | ok a h => exact Or.inl ⟨a, _, rfl, h⟩
  | error m hfaulty h => exact Or.inr ⟨_, m, rfl, hfaulty, h⟩

/-- The tasks do what the computation does, whatever session they begin in. -/
def Performs (dialect : Dialect ε ι ρ) (tasks : List (Task ε ι)) (m : Run ε α) : Prop :=
  ∀ s, Performed dialect s tasks (m s)

namespace Performed

variable {dialect : Dialect ε ι ρ} {s : Session ε}

/-- A task that is done at once. -/
theorem single {task : Task ε ι} {after : Session ε} (a : α)
    (h : task.begin? dialect s = some (after, [])) :
    Performed dialect s [task] (.ok a after : EStateM.Result Fault (Session ε) α) :=
  .ok a fun rest => .single (Moment.next?_append dialect s task rest h)

/-- A task that others take the place of. -/
theorem head {task : Task ε ι} {after : Session ε} {tasks : List (Task ε ι)}
    {r : EStateM.Result Fault (Session ε) α} (h : task.begin? dialect s = some (after, tasks))
    (hr : Performed dialect after tasks r) : Performed dialect s [task] r := by
  have hnext := fun rest => Moment.next?_append dialect s task rest h
  rcases performed_cases hr with ⟨a, last, rfl, hreaches⟩ | ⟨fault, m, rfl, hfaulty, hreaches⟩
  · exact .ok a fun rest => .head (hnext rest) (hreaches rest)
  · exact .error m hfaulty fun rest => .head (hnext rest) (hreaches rest)

/-- Tasks and what comes after them, if no second chain is left behind. -/
theorem append {m : Run ε α} {f : α → Run ε β} {first next : List (Task ε ι)}
    (hm : Performed dialect s first (m s)) (hf : ∀ a, Performs dialect next (f a))
    (hnext : Moment.mains next = []) : Performed dialect s (first ++ next) ((m >>= f) s) := by
  simp only [bind, EStateM.bind]
  rcases performed_cases hm with ⟨a, middle, hs, hfirst⟩ | ⟨fault, m, hs, hfaulty, hfirst⟩
  · rw [hs]
    have hjoin : ∀ rest, Reaches (Moment.next? dialect) ⟨s, first ++ next ++ rest⟩
        ⟨middle, next ++ rest⟩ := by
      intro rest
      rw [List.append_assoc]
      exact hfirst (next ++ rest)
    rcases performed_cases (hf a middle) with ⟨b, last, hlast, h⟩ | ⟨fault, m, hlast, hfaulty, h⟩
    · simp only [hlast]
      exact .ok b fun rest => (hjoin rest).trans (h rest)
    · simp only [hlast]
      exact .error m hfaulty fun rest => (hjoin rest).trans (h rest)
  · rw [hs]
    have habandoned := m.abandoned_append hnext
    simp only [← habandoned]
    refine .error ⟨m.session, m.tasks ++ next⟩ (hfaulty.append next) fun rest => ?_
    rw [List.append_assoc, List.append_assoc]
    exact hfirst (next ++ rest)

/-- Mapping the answer performs the same tasks. -/
theorem map {m : Run ε α} {tasks : List (Task ε ι)} (h : Performed dialect s tasks (m s))
    (f : α → β) : Performed dialect s tasks ((f <$> m) s) := by
  simp only [Functor.map, EStateM.map]
  rcases performed_cases h with ⟨a, last, hs, h⟩ | ⟨fault, m, hs, hfaulty, h⟩
  · rw [hs]
    exact .ok (f a) h
  · rw [hs]
    exact .error m hfaulty h

end Performed

namespace Performs

variable {dialect : Dialect ε ι ρ}

theorem pure (a : α) : Performs dialect [] (Pure.pure a : Run ε α) :=
  fun _ => .ok a fun _ => .refl

theorem ask (f : Chain ε → α) : Performs dialect [] (Session.ask f) :=
  fun s => .ok (f s.chain) fun _ => .refl

/-- Computations one after the other perform their tasks one after the other. -/
theorem bind {m : Run ε α} {f : α → Run ε β} {first next : List (Task ε ι)}
    (hm : Performs dialect first m) (hf : ∀ a, Performs dialect next (f a))
    (hnext : Moment.mains next = []) : Performs dialect (first ++ next) (m >>= f) :=
  fun s => (hm s).append hf hnext

/-- Mapping the answer performs the same tasks in every session. -/
theorem map {m : Run ε α} {tasks : List (Task ε ι)} (h : Performs dialect tasks m) (f : α → β) :
    Performs dialect tasks (f <$> m) :=
  fun s => (h s).map f

/-- Ending a scope pops frames as long as the depth is above the one at the start. -/
theorem unwind {depth : Nat} (hdepth : 0 < depth) :
    Performs dialect [.close depth] (Session.unwind depth : Run ε Unit) := by
  intro s
  rw [unwind_eq s hdepth]
  have hcleanUp := (cleanUp_iff hdepth s _).mpr rfl
  generalize s.unwoundTo depth = last at hcleanUp ⊢
  refine .ok () fun rest => ?_
  induction hcleanUp with
  | @done s h =>
      have hdone : (Task.close depth : Task ε ι).begin? dialect s = some (s, []) :=
        if_neg (Nat.not_lt.mpr h)
      exact .single (Moment.next?_append dialect s (.close depth) rest hdone)
  | @popped s middle last frame h hpop _ ih =>
      have hmiddle : s.afterPop = middle := (EStateM.Result.ok.inj ((pop_eq s).symm.trans hpop)).2
      have hagain : (Task.close depth : Task ε ι).begin? dialect s =
          some (middle, [.close depth]) := by
        rw [← hmiddle]
        exact if_pos h
      exact .head (Moment.next?_append dialect s (.close depth) rest hagain) ih
  | @refused s last e h hpop =>
      -- At a depth above another one there is something to pop.
      rw [pop_of_one_lt_depth s (by omega)] at hpop
      cases hpop

/-- A task that opens a scope leaves the tasks of the body and the task to end the scope. -/
theorem inScope {body : Run ε α} {task : Task ε ι} {tasks : List (Task ε ι)}
    (hbegin : ∀ s : Session ε, task.begin? dialect s =
      some (s.afterPush (.empty s.chain.hasher), tasks ++ [.close s.chain.depth]))
    (hbody : Performs dialect tasks body) : Performs dialect [task] (Session.inScope body) := by
  intro s
  have hscope : Session.inScope body s = (do
      let answer ← body
      Session.unwind s.chain.depth
      Pure.pure answer) (s.afterPush (.empty s.chain.hasher)) := by
    simp only [Session.inScope, Session.ask, Bind.bind, EStateM.bind, pushBy_push]
  rw [hscope]
  refine .head (hbegin s) ((hbody _).append (fun answer => ?_) rfl)
  exact (unwind s.chain.stack.depth_pos).bind (fun _ => pure answer) rfl

/-- Several rounds of a body perform its tasks as often. -/
theorem rounds {body : Run ε α} {tasks : List (Task ε ι)} (hbody : Performs dialect tasks body)
    (hplain : Moment.mains tasks = []) (n : Nat) :
    Performs dialect (List.replicate n tasks).flatten (LexicalScope.rounds body n) := by
  induction n with
  | zero => exact pure none
  | succ n ih =>
      rw [List.replicate_succ', List.flatten_concat]
      exact ih.bind (fun _ => hbody.map some) hplain

/-- A task that goes to a second chain leaves the tasks of the body and the task to come back. -/
theorem aside {body : Run ε α} {tasks : List (Task ε ι)} {s : Session ε} {task : Task ε ι}
    {hasher : Hasher} {start : Start ε}
    (hbegin : task.begin? dialect s =
      some (⟨hasher, start.chain hasher, #[], none, s.log⟩, tasks ++ [.rejoin s]))
    (hbody : Performs dialect tasks body) :
    Performed dialect s [task] (Session.aside hasher start body s) := by
  refine .head hbegin ?_
  simp only [Session.aside]
  rcases performed_cases (hbody ⟨hasher, start.chain hasher, #[], none, s.log⟩) with
    ⟨a, other, hs, h⟩ | ⟨fault, m, hs, hfaulty, h⟩
  · simp only [hs]
    refine .ok other.chain fun rest => ?_
    rw [List.append_assoc]
    exact (h _).tail (Moment.next?_append dialect other (.rejoin s) rest rfl)
  · simp only [hs]
    have habandoned := m.abandoned_rejoin s
    change Performed dialect _ _ (.error fault { s with log := m.abandoned.log })
    rw [← habandoned]
    refine .error ⟨m.session, m.tasks ++ [.rejoin s]⟩ (hfaulty.append _) fun rest => ?_
    rw [List.append_assoc, List.append_assoc]
    exact h _

end Performs

/-! ## Commands -/

variable [Ord κ] {dialect : Dialect ε ι ρ}

mutual

/-- The task to run a command does what the command does. -/
theorem performs_exec (hdialect : dialect.FaultsInPlace) :
    ∀ command, Performs dialect [.run command] (exec dialect command)
  | .keyed request => by
      intro s
      have hplace := hdialect request s.chain
      rw [exec_keyed]
      rcases hs : dialect.fulfil request s.chain with ⟨fault | answer, c⟩
      · rw [hs] at hplace
        have hc : c = s.chain := hplace fault rfl
        have hfaulty : Moment.Faulty dialect fault ⟨s, [.run (.keyed request)]⟩ :=
          ⟨request, [], rfl, by rw [hs]⟩
        rw [hc]
        exact .error _ hfaulty fun _ => .refl
      · refine .single _ ?_
        rw [Task.begin?, hs]
  | .push => by
      intro s
      rw [exec_push]
      exact .single _ rfl
  | .pushFrame entries mark => by
      intro s
      rw [exec_pushFrame]
      exact .single _ rfl
  | .pop => by
      intro s
      rw [exec_pop]
      exact .single _ rfl
  | .pushPopped => by
      intro s
      rw [exec_pushPopped]
      cases hpopped : s.popped <;> exact .single _ (by rw [Task.begin?, hpopped]; rfl)
  | .scope body => by
      rw [exec]
      exact (Performs.inScope (fun _ => rfl) (performs_execAll hdialect body)).map _
  | .nest n body => by
      have hscopes : Performs dialect [.run (.nest n body)]
          (inScopes (execAll dialect body) n) := by
        induction n with
        | zero =>
            intro s
            exact .head rfl (performs_execAll hdialect body s)
        | succ n ih =>
            have hbegin : ∀ s : Session ε, (Task.run (.nest (n + 1) body)).begin? dialect s =
                some (s.afterPush (.empty s.chain.hasher),
                  [.run (.nest n body)] ++ [.close s.chain.depth]) := fun _ => rfl
            exact .inScope hbegin ih
      rw [exec]
      exact hscopes.map _
  | .rounds n body => by
      intro s
      have hrounds := Performs.rounds (performs_execAll hdialect body) (Moment.mains_run body) n
      rw [exec]
      refine .head rfl ?_
      rw [← List.append_nil (List.flatten _)]
      refine (hrounds s).append (fun last => ?_) rfl
      cases last <;> exact .pure _
  | .save => by
      intro s
      rw [exec_save]
      exact .single _ rfl
  | .restore copy => by
      intro s
      rw [exec_restore]
      cases hcopy : s.saved[copy]? <;> exact .single _ (by rw [Task.begin?, hcopy]; rfl)
  | .equalsSaved copy => by
      intro s
      rw [exec_equalsSaved]
      cases s.saved[copy]? <;> exact .single _ rfl
  | .stackEqualsSaved copy => by
      intro s
      rw [exec_stackEqualsSaved]
      cases s.saved[copy]? <;> exact .single _ rfl
  | .equalsOther start mark body => by
      intro s
      have haside : Performed dialect s [.run (.equalsOther start mark body)]
          (aside (s.hasher.withMark mark) start (execAll dialect body) s) :=
        Performs.aside rfl (performs_execAll hdialect body)
      rw [exec]
      change Performed dialect s ([_] ++ []) ((aside _ start _ >>= _) s)
      exact haside.append (fun other => (Performs.ask _).map _) rfl
  | .depth | .hashers | .root | .top | .frame _ | .frames | .framesBelow _ | .positionOfSize _
  | .visible | .visibleFrames _ | .display _ => by
      intro s
      rw [exec]
      exact .single _ rfl
  | .visibleHints => by
      intro s
      rw [exec]
      exact .single _ rfl

/-- The tasks to run commands do what the commands do. -/
theorem performs_execAll (hdialect : dialect.FaultsInPlace) :
    ∀ commands, Performs dialect (commands.map .run) (execAll dialect commands)
  | [] => by
      rw [execAll]
      exact .pure _
  | command :: rest => by
      rw [execAll]
      refine (performs_exec hdialect command).bind (fun answer => ?_) (Moment.mains_run rest)
      intro s
      exact (performs_execAll hdialect rest s).map fun answers => (answer, s.chain.depth) :: answers

end

/-! ## From moments to computations -/

omit [Ord κ] in
/-- There is only one moment without a next one that a moment leads to. -/
theorem last_moment_unique {m₀ m m' : Moment ε ι} (h : Reaches (Moment.next? dialect) m₀ m)
    (hm : m.next? dialect = none) (h' : Reaches (Moment.next? dialect) m₀ m')
    (hm' : m'.next? dialect = none) : m = m' :=
  Part.mem_unique (mem_eval.mpr ⟨h, hm⟩) (mem_eval.mpr ⟨h', hm'⟩)

/--
A command is carried out if and only if its moments lead to one without tasks, and then it ends
in the session of that moment.
-/
theorem exec_eq_ok_iff (hdialect : dialect.FaultsInPlace) (command : Command ε ι)
    (s after : Session ε) :
    (∃ answer, exec dialect command s = .ok answer after) ↔
      Reaches (Moment.next? dialect) ⟨s, [.run command]⟩ ⟨after, []⟩ := by
  rcases performed_cases (performs_exec hdialect command s) with
    ⟨a, last, hs, h⟩ | ⟨fault, m, hs, hfaulty, h⟩
  · constructor
    · rintro ⟨answer, hanswer⟩
      rw [hs] at hanswer
      cases hanswer
      exact h []
    · intro hreaches
      have heq := last_moment_unique (h []) rfl hreaches rfl
      cases heq
      exact ⟨a, hs⟩
  · constructor
    · rintro ⟨answer, hanswer⟩
      rw [hs] at hanswer
      cases hanswer
    · intro hreaches
      have hm := h []
      rw [List.append_nil m.tasks] at hm
      have heq : m = ⟨after, []⟩ := last_moment_unique hm hfaulty.next? hreaches rfl
      rcases hfaulty with ⟨request, rest, htasks, -⟩
      rw [heq] at htasks
      cases htasks

/--
A command is ended by a fault if and only if its moments lead to that fault, and then it ends in
the session that stays if all other tasks are given up.
-/
theorem exec_eq_error_iff (hdialect : dialect.FaultsInPlace) (command : Command ε ι)
    (s after : Session ε) (fault : Fault) :
    exec dialect command s = .error fault after ↔
      ∃ m, Reaches (Moment.next? dialect) ⟨s, [.run command]⟩ m ∧ m.Faulty dialect fault ∧
        after = m.abandoned := by
  rcases performed_cases (performs_exec hdialect command s) with
    ⟨a, last, hs, h⟩ | ⟨fault', m, hs, hfaulty, h⟩
  · constructor
    · intro herror
      rw [hs] at herror
      cases herror
    · rintro ⟨m, hm, hfaulty, -⟩
      have heq := last_moment_unique (h []) rfl hm hfaulty.next?
      rcases hfaulty with ⟨request, rest, htasks, -⟩
      rw [← heq] at htasks
      cases htasks
  · have hm := h []
    rw [List.append_nil m.tasks] at hm
    constructor
    · intro herror
      rw [hs] at herror
      cases herror
      exact ⟨m, hm, hfaulty, rfl⟩
    · rintro ⟨m', hm', hfaulty', rfl⟩
      have heq : m = m' := last_moment_unique hm hfaulty.next? hm' hfaulty'.next?
      subst heq
      have hfault : fault' = fault := by
        rcases hfaulty with ⟨request, rest, htasks, hrequest⟩
        rcases hfaulty' with ⟨request', rest', htasks', hrequest'⟩
        cases htasks.symm.trans htasks'
        exact Except.error.inj (hrequest.symm.trans hrequest')
      exact hfault ▸ hs

end Session

/-! ## Second chains -/

namespace Moment

variable {dialect : Dialect ε ι ρ}

/-- Only a comparison with a second chain leaves the task to come back from it. -/
theorem mains_of_begin? {task : Task ε ι} {s after : Session ε} {tasks : List (Task ε ι)}
    (h : task.begin? dialect s = some (after, tasks)) :
    mains tasks = [] ∨
      ∃ start mark body, task = .run (.equalsOther start mark body) ∧
        tasks = body.map .run ++ [.rejoin s] := by
  cases task with
  | close depth =>
      rw [Task.begin?] at h
      split at h <;> cases h <;> exact Or.inl rfl
  | rejoin main =>
      cases h
      exact Or.inl rfl
  | run command =>
      cases command with
      | keyed request =>
          rw [Task.begin?] at h
          split at h
          · cases h
            exact Or.inl rfl
          · cases h
      | scope body =>
          cases h
          exact Or.inl (by simp)
      | nest n body =>
          cases n with
          | zero =>
              cases h
              exact Or.inl (mains_run body)
          | succ n =>
              cases h
              exact Or.inl rfl
      | rounds n body =>
          cases h
          exact Or.inl (mains_replicate n (mains_run body))
      | equalsOther start mark body =>
          cases h
          exact Or.inr ⟨start, mark, body, rfl, rfl⟩
      | _ =>
          cases h
          exact Or.inl rfl

/-- Only a comparison with another chain makes a session wait, and that is its last task. -/
theorem rejoin_of_begin? {task : Task ε ι} {s after main : Session ε}
    {inner behind : List (Task ε ι)}
    (h : task.begin? dialect s = some (after, inner ++ .rejoin main :: behind)) :
    behind = [] ∧ main = s ∧ ∃ start mark body, task = .run (.equalsOther start mark body) := by
  rcases mains_of_begin? h with hmains | ⟨start, mark, body, rfl, htasks⟩
  · simp [mains, Task.main?] at hmains
  · rcases List.append_eq_append_iff.mp htasks with ⟨between, hbody, hrest⟩ | ⟨between, rfl, hrest⟩
    · rcases between with _ | ⟨first, between⟩
      · cases hrest
        exact ⟨rfl, rfl, start, mark, body, rfl⟩
      · rw [List.cons_append, List.cons.injEq] at hrest
        have hmem : Task.rejoin main ∈ body.map (.run : _ → Task ε ι) := by
          rw [hbody, hrest.1]
          exact List.mem_append_right _ List.mem_cons_self
        simp at hmem
    · rcases between with _ | ⟨first, between⟩
      · cases hrest
        exact ⟨rfl, rfl, start, mark, body, rfl⟩
      · simp at hrest

/--
A session that is left for a second chain is the session at the moment of the comparison, and the
tasks behind it are those that were left behind at that moment.
-/
theorem compared_of_reaches {s : Session ε} {command : Command ε ι} {m : Moment ε ι}
    (h : Reaches (next? dialect) ⟨s, [.run command]⟩ m) {main : Session ε}
    {inner outer : List (Task ε ι)} (htasks : m.tasks = inner ++ .rejoin main :: outer) :
    ∃ start mark body,
      Reaches (next? dialect) ⟨s, [.run command]⟩
        ⟨main, .run (.equalsOther start mark body) :: outer⟩ ∧
      Reaches (next? dialect) ⟨main, .run (.equalsOther start mark body) :: outer⟩ m := by
  -- By induction on the moments: the task to come back was there before, or it was just put in.
  induction h generalizing inner with
  | refl => rcases inner with _ | ⟨task, _ | _⟩ <;> cases htasks
  | @tail m m' hreaches hnext ih =>
      rcases m with ⟨t, _ | ⟨task, rest⟩⟩
      · cases hnext
      have hbefore : ∀ between, task :: rest = between ++ .rejoin main :: outer →
          ∃ start mark body,
            Reaches (next? dialect) ⟨s, [.run command]⟩
              ⟨main, .run (.equalsOther start mark body) :: outer⟩ ∧
            Reaches (next? dialect) ⟨main, .run (.equalsOther start mark body) :: outer⟩ m' := by
        intro between htask
        rcases ih htask with ⟨start, mark, body, hcompared, hafter⟩
        exact ⟨start, mark, body, hcompared, hafter.tail hnext⟩
      rcases Option.map_eq_some_iff.mp hnext with ⟨⟨after, tasks⟩, hbegin, rfl⟩
      rcases List.append_eq_append_iff.mp htasks with ⟨between, -, hrest⟩ | ⟨between, hnew, hrest⟩
      · exact hbefore (task :: between) (congrArg (List.cons task) hrest)
      · rcases between with _ | ⟨first, behind⟩
        · exact hbefore [task] (congrArg (List.cons task) hrest.symm)
        · rw [List.cons_append, List.cons.injEq] at hrest
          rw [hnew, ← hrest.1] at hbegin
          rcases rejoin_of_begin? hbegin with ⟨rfl, rfl, start, mark, body, rfl⟩
          rw [List.nil_append] at hrest
          rw [hrest.2]
          exact ⟨start, mark, body, hreaches, .single hnext⟩

end Moment

end LexicalScope
