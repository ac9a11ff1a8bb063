import LexicalScope.Proofs.Session.Invariant

/-!
# Single steps of a session

Whatever a command does to a session it does in single steps: a request about keys is
fulfilled, a frame is pushed or popped, a copy is saved or restored, the events of a second
chain are recorded.  The steps of a command are listed here, those of scopes and their
clean-up included, up to the fault that ends it, if there is one.  Looking at the chain is no
step.

The steps say all there is to say about the session in which a command ends: making them
one after the other leads to the same session.  So a property that single steps keep is kept
by commands, by induction on the list of steps; the property may depend on what holds before
each of the steps.

Main results:

- Theorem {lit}`Session.traces_exec`: a command ends in the session that its steps lead to,
  whether a fault ends it or not.
- Theorem {lit}`Session.run_snd_eq_replay`: so does a run of commands.
- Theorem {lit}`Session.Throughout.replay`: what single steps keep is kept by a list of steps.
-/

namespace LexicalScope
namespace Session

variable {ε ι ρ κ α β : Type} [Entry ε κ] [BEq κ]

/-! ## Steps -/

/-- A single step of a session. -/
inductive Step (ε ι : Type) {κ : Type} [Entry ε κ] [BEq κ] where
  /-- A request about keys is fulfilled, or it is a fault. -/
  | keyed (request : ι)
  /-- A frame is pushed. -/
  | push (frame : Frame ε)
  /-- A scope that has ended pops the current frame. -/
  | pop
  /-- The current frame is popped by request, and remembered. -/
  | take
  /-- A copy of the chain is saved. -/
  | save
  /-- A saved copy takes the place of the chain. -/
  | restore (copy : Chain ε)
  /-- What happened to a second chain is recorded. -/
  | record (log : Array Event)

/-- The session after a step. -/
def Step.after (dialect : Dialect ε ι ρ) (step : Step ε ι) (s : Session ε) : Session ε :=
  match step with
  | .keyed request => { s with chain := (dialect.fulfil request s.chain).2 }
  | .push frame => s.afterPush frame
  | .pop => s.afterPop
  | .take => { s.afterPop with popped := s.chain.pop.1.toOption.or s.popped }
  | .save => { s with saved := s.saved.push s.chain }
  | .restore copy => { s with chain := copy }
  | .record log => { s with log := log }

/-- The session after a list of steps. -/
def replay (dialect : Dialect ε ι ρ) (steps : List (Step ε ι)) (s : Session ε) : Session ε :=
  steps.foldl (fun s step => step.after dialect s) s

/-- The steps that a computation makes, depending on the session that it begins in. -/
abbrev Trace (ε ι : Type) {κ : Type} [Entry ε κ] [BEq κ] :=
  Session ε → List (Step ε ι)

/-- The steps of a computation and then those of what comes after it, unless a fault ends it. -/
def Trace.andThen (first : Trace ε ι) (m : Run ε α) (next : α → Trace ε ι) : Trace ε ι := fun s =>
  first s ++
    match m s with
    | .ok a middle => next a middle
    | .error _ _ => []

/-! ## The steps of commands -/

/-- The steps of popping frames the given number of times, up to a refusal. -/
def popTimesTrace : Nat → Trace ε ι
  | 0 => fun _ => []
  | n + 1 => Trace.andThen (fun _ => [.pop]) pop fun outcome =>
    match outcome with
    | .ok _ => popTimesTrace n
    | .error _ => fun _ => []

/-- The steps of a scope: a push, the steps of the body, and the pops of the clean-up. -/
def scopeTrace (body : Run ε α) (trace : Trace ε ι) : Trace ε ι := fun s =>
  Trace.andThen (fun s => [.push (.empty s.chain.hasher)]) (pushBy Chain.push)
    (fun _ => trace.andThen body fun _ inner =>
      popTimesTrace (inner.chain.depth - s.chain.depth) inner) s

/-- The steps of the given number of scopes around a body. -/
def scopesTrace (body : Run ε α) (trace : Trace ε ι) : Nat → Trace ε ι
  | 0 => trace
  | n + 1 => scopeTrace (inScopes body n) (scopesTrace body trace n)

/-- The steps of the given number of rounds of a body. -/
def roundsTrace (body : Run ε α) (trace : Trace ε ι) : Nat → Trace ε ι
  | 0 => fun _ => []
  | n + 1 => Trace.andThen (roundsTrace body trace n) (rounds body n) fun _ => trace

variable [Ord κ]

mutual

/-- The steps of a command. -/
def steps (dialect : Dialect ε ι ρ) : Command ε ι → Trace ε ι
  | .keyed request => fun _ => [.keyed request]
  | .push => fun s => [.push (.empty s.chain.hasher)]
  | .pushFrame entries mark => fun s => [.push (.ofList (s.hasher.withMark mark) entries)]
  | .pop => fun _ => [.take]
  | .pushPopped => fun s => (s.popped.map Step.push).toList
  | .scope body => scopeTrace (execAll dialect body) (stepsAll dialect body)
  | .nest n body => scopesTrace (execAll dialect body) (stepsAll dialect body) n
  | .rounds n body => roundsTrace (execAll dialect body) (stepsAll dialect body) n
  | .save => fun _ => [.save]
  | .restore copy => fun s => (s.saved[copy]?.map Step.restore).toList
  | .equalsOther start mark body => fun s =>
    let hasher := s.hasher.withMark mark
    [.record (lastOf (execAll dialect body ⟨hasher, start.chain hasher, #[], none, s.log⟩)).log]
  | .depth | .hashers | .root | .top | .frame _ | .frames | .framesBelow _ => fun _ => []
  | .positionOfSize _ | .visible | .visibleFrames _ | .visibleHints | .display _ => fun _ => []
  | .equalsSaved _ | .stackEqualsSaved _ => fun _ => []

/-- The steps of a list of commands. -/
def stepsAll (dialect : Dialect ε ι ρ) : List (Command ε ι) → Trace ε ι
  | [] => fun _ => []
  | command :: rest => (steps dialect command).andThen (exec dialect command) fun _ =>
    stepsAll dialect rest

end

/-! ## Computations and their steps -/

/-- The computation ends in the session that the steps lead to. -/
def Traces (dialect : Dialect ε ι ρ) (m : Run ε α) (trace : Trace ε ι) : Prop :=
  ∀ s, lastOf (m s) = replay dialect (trace s) s

namespace Traces

variable {dialect : Dialect ε ι ρ}

omit [Ord κ] in
theorem pure (a : α) : Traces dialect (Pure.pure a : Run ε α) fun _ => [] :=
  fun _ => rfl

omit [Ord κ] in
/-- The steps of two computations are taken one after the other. -/
theorem bind {m : Run ε α} {f : α → Run ε β} {first : Trace ε ι} {next : α → Trace ε ι}
    (hm : Traces dialect m first) (hf : ∀ a, Traces dialect (f a) (next a)) :
    Traces dialect (m >>= f) (first.andThen m next) := by
  intro s
  have hfirst := hm s
  simp only [Bind.bind, EStateM.bind, Trace.andThen]
  cases h : m s with
  | ok a middle =>
      rw [h, lastOf_ok] at hfirst
      rw [replay, List.foldl_append]
      change _ = replay dialect (next a middle) (replay dialect (first s) s)
      rw [← hfirst]
      exact hf a middle
  | error fault middle =>
      rw [h, lastOf_error] at hfirst
      rw [List.append_nil]
      exact hfirst

omit [Ord κ] in
/-- Mapping the answer takes no steps of its own. -/
theorem map {m : Run ε α} {trace : Trace ε ι} (hm : Traces dialect m trace) (f : α → β) :
    Traces dialect (f <$> m) trace := by
  intro s
  rw [← hm s]
  simp only [Functor.map, EStateM.map]
  cases m s <;> rfl

omit [Ord κ] in
/-- Answering something else afterwards takes no steps of its own. -/
theorem bind_pure {m : Run ε α} {trace : Trace ε ι} (hm : Traces dialect m trace) (f : α → β) :
    Traces dialect (m >>= fun a => Pure.pure (f a)) trace := by
  rw [bind_pure_comp]
  exact hm.map f

omit [Ord κ] in
theorem ask (f : Chain ε → α) : Traces dialect (Session.ask f) fun _ => [] :=
  fun _ => rfl

omit [Ord κ] in
/-- A push of an empty frame is a single step. -/
theorem push : Traces dialect (pushBy Chain.push) fun s => [.push (.empty s.chain.hasher)] := by
  intro s
  rw [pushBy_push]
  rfl

omit [Ord κ] in
/-- A pop is a single step. -/
theorem pop : Traces dialect Session.pop fun _ => [.pop] := by
  intro s
  rw [pop_eq]
  rfl

omit [Ord κ] in
/-- Repeated pops take the steps of a pop until one is refused. -/
theorem popTimes (n : Nat) : Traces dialect (Session.popTimes n) (popTimesTrace n) := by
  induction n with
  | zero => exact pure ()
  | succ n ih =>
      apply bind pop
      intro outcome
      cases outcome with
      | ok frame => exact ih
      | error e => exact pure ()

omit [Ord κ] in
/-- A scope takes the steps of its push, of its body and of its pops. -/
theorem inScope {body : Run ε α} {trace : Trace ε ι} (hbody : Traces dialect body trace) :
    Traces dialect (Session.inScope body) (scopeTrace body trace) := by
  intro s
  have hunwind : Traces dialect (unwind s.chain.depth) fun inner =>
      popTimesTrace (inner.chain.depth - s.chain.depth) inner := fun inner =>
    popTimes (inner.chain.depth - s.chain.depth) inner
  exact bind push (fun _ => bind hbody fun a => bind_pure hunwind fun _ => a) s

omit [Ord κ] in
/-- Several scopes take the steps of each around those of the body. -/
theorem inScopes {body : Run ε α} {trace : Trace ε ι} (hbody : Traces dialect body trace) (n : Nat) :
    Traces dialect (Session.inScopes body n) (scopesTrace body trace n) := by
  induction n with
  | zero => exact hbody
  | succ n ih => exact inScope ih

omit [Ord κ] in
/-- Several rounds take the steps of the body as often, until one is given up. -/
theorem rounds {body : Run ε α} {trace : Trace ε ι} (hbody : Traces dialect body trace) (n : Nat) :
    Traces dialect (LexicalScope.rounds body n) (roundsTrace body trace n) := by
  induction n with
  | zero => exact pure none
  | succ n ih => exact bind ih fun _ => hbody.map some

end Traces

mutual

/-- A command ends in the session that its steps lead to. -/
theorem traces_exec (dialect : Dialect ε ι ρ) :
    ∀ command, Traces dialect (exec dialect command) (steps dialect command)
  | .keyed request => by
      intro s
      rw [exec_keyed]
      change _ = { s with chain := (dialect.fulfil request s.chain).2 }
      rcases dialect.fulfil request s.chain with ⟨_ | _, c⟩ <;> rfl
  | .push => by
      intro s
      rw [exec_push]
      rfl
  | .pushFrame entries mark => by
      intro s
      rw [exec_pushFrame]
      rfl
  | .pop => by
      intro s
      rw [exec_pop]
      rfl
  | .pushPopped => by
      intro s
      rw [exec_pushPopped]
      change _ = replay dialect (s.popped.map Step.push).toList s
      cases s.popped <;> rfl
  | .scope body => by
      rw [exec]
      exact (Traces.inScope (traces_execAll dialect body)).map _
  | .nest n body => by
      rw [exec]
      exact (Traces.inScopes (traces_execAll dialect body) n).map _
  | .rounds n body => by
      -- The answer of the last round is handed out, which is no step.
      intro s
      have hrounds := Traces.rounds (traces_execAll dialect body) n s
      rw [exec, steps, ← hrounds]
      simp only [Bind.bind, EStateM.bind]
      rcases rounds (execAll dialect body) n s with ⟨_ | _, _⟩ | ⟨_, _⟩ <;> rfl
  | .save => by
      intro s
      rw [exec_save]
      rfl
  | .restore copy => by
      intro s
      rw [exec_restore]
      change _ = replay dialect (s.saved[copy]?.map Step.restore).toList s
      cases s.saved[copy]? <;> rfl
  | .equalsSaved copy => by
      intro s
      rw [exec_equalsSaved]
      cases s.saved[copy]? <;> rfl
  | .stackEqualsSaved copy => by
      intro s
      rw [exec_stackEqualsSaved]
      cases s.saved[copy]? <;> rfl
  | .equalsOther start mark body => by
      intro s
      rw [exec, steps, bind_get]
      simp only [Bind.bind, EStateM.bind, aside]
      cases execAll dialect body _ <;> rfl
  | .depth | .hashers | .root | .top | .frame _ | .frames | .framesBelow _ | .positionOfSize _
  | .visible | .visibleFrames _ | .display _ => by
      rw [exec]
      exact (Traces.ask _).map _
  | .visibleHints => by
      rw [exec]
      exact Traces.ask _

/-- A list of commands takes the steps of its commands in order. -/
theorem traces_execAll (dialect : Dialect ε ι ρ) :
    ∀ commands, Traces dialect (execAll dialect commands) (stepsAll dialect commands)
  | [] => by
      rw [execAll]
      exact Traces.pure _
  | command :: rest => by
      intro s
      have hrest : ∀ a, Traces dialect (do
          let depth ← ask Chain.depth
          let answers ← execAll dialect rest
          return (a, depth) :: answers) (stepsAll dialect rest) := by
        intro a s'
        exact Traces.bind_pure (traces_execAll dialect rest) _ s'
      rw [execAll]
      exact Traces.bind (traces_exec dialect command) hrest s

end

/-! ## The steps of a run -/

/-- The steps of a run of commands; before each command the events are cleared. -/
def runSteps (dialect : Dialect ε ι ρ) : List (Command ε ι) → Trace ε ι
  | [] => fun _ => []
  | command :: rest => fun s =>
    .record #[] :: steps dialect command { s with log := #[] } ++
      runSteps dialect rest (step dialect command s).after

/-- The session after a step is the last one of its command. -/
theorem after_step_eq_lastOf (dialect : Dialect ε ι ρ) (command : Command ε ι) (s : Session ε) :
    (step dialect command s).after = lastOf (exec dialect command { s with log := #[] }) := by
  unfold step
  cases exec dialect command { s with log := #[] } <;> rfl

/-- A run ends in the session that its steps lead to, whatever faults there were. -/
theorem run_snd_eq_replay (dialect : Dialect ε ι ρ) (commands : List (Command ε ι))
    (s : Session ε) : (run dialect commands s).2 = replay dialect (runSteps dialect commands s) s := by
  induction commands generalizing s with
  | nil => rfl
  | cons command rest ih =>
      have hafter : (step dialect command s).after =
          replay dialect (.record #[] :: steps dialect command { s with log := #[] }) s :=
        (after_step_eq_lastOf dialect command s).trans (traces_exec dialect command _)
      rw [runSteps, replay, List.foldl_append]
      change (run dialect rest (step dialect command s).after).2 = replay dialect
        (runSteps dialect rest (step dialect command s).after) (replay dialect _ s)
      rw [← hafter]
      exact ih _

/-! ## Conditions on all steps -/

omit [Ord κ]

/-- The condition holds for every step and the session before it. -/
def Throughout (dialect : Dialect ε ι ρ) (p : Step ε ι → Session ε → Prop) :
    List (Step ε ι) → Session ε → Prop
  | [], _ => True
  | step :: rest, s => p step s ∧ Throughout dialect p rest (step.after dialect s)

instance (dialect : Dialect ε ι ρ) (p : Step ε ι → Session ε → Prop)
    [hp : ∀ step s, Decidable (p step s)] :
    ∀ steps s, Decidable (Throughout dialect p steps s)
  | [], _ => inferInstanceAs (Decidable True)
  | step :: rest, s =>
    have := instDecidableThroughout dialect p rest (step.after dialect s)
    inferInstanceAs (Decidable (p step s ∧ Throughout dialect p rest (step.after dialect s)))

/-- A condition that holds throughout holds throughout the first steps. -/
theorem Throughout.take {dialect : Dialect ε ι ρ} {p : Step ε ι → Session ε → Prop}
    {steps : List (Step ε ι)} {s : Session ε} (h : Throughout dialect p steps s) (n : Nat) :
    Throughout dialect p (steps.take n) s := by
  induction steps generalizing s n with
  | nil =>
      rw [List.take_nil]
      exact trivial
  | cons step rest ih =>
      cases n with
      | zero => exact trivial
      | succ n => exact ⟨h.1, ih h.2 n⟩

/-- What single steps keep under a condition is kept if the condition holds throughout. -/
theorem Throughout.replay {dialect : Dialect ε ι ρ} {p : Step ε ι → Session ε → Prop}
    {P : Session ε → Prop} (hP : ∀ step s, p step s → P s → P (step.after dialect s))
    {steps : List (Step ε ι)} {s : Session ε} (h : Throughout dialect p steps s) (hs : P s) :
    P (replay dialect steps s) := by
  induction steps generalizing s with
  | nil => exact hs
  | cons step rest ih => exact ih h.2 (hP step s h.1 hs)

end Session
end LexicalScope
