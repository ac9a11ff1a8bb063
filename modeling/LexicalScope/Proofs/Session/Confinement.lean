import LexicalScope.Proofs.Chain.Effect
import LexicalScope.Proofs.Session.Steps
import LexicalScope.Proofs.Session.Unwinding

/-!
# Scopes that restore the chain

A scope takes off the frames that its body leaves above the depth at the start.  So the
chain after it is the chain before it if the body keeps away from the frames that were there:
it does not pop them, it does not write to them, and it does not go back to a saved copy.
Looking at them is allowed, and so is every write that fails.

Which frame a request writes to depends on the chain at that moment, since a key is looked up
in all frames.  The frame is called the target of the request.

Main results:

- Theorems {lit}`BindingRequest.writesTo_target` and {lit}`NameRequest.writesTo_target`: a
  request that is accepted changes its target and no other frame, and any other request
  changes nothing.
- Theorem {lit}`Session.Step.sameBelow_after`: a step above a depth leaves the frames below it.
- Theorem {lit}`Session.scope_restores_chain`: a scope whose body stays above the depth at the
  start ends in the chain that it began with.
-/

namespace LexicalScope

variable {ε κ ν : Type} [Entry ε κ] [BEq κ]

/-! ## The frame that a request writes to -/

/--
A chain that fulfils a request writes to the target of the request and to no other frame.
Requests that are refused and requests that only look at the chain have no target.
-/
def Dialect.WritesTo {ι ρ : Type} (dialect : Dialect ε ι ρ) (accepted : Except Fault ρ → Bool)
    (target : ι → Chain ε → Option Nat) : Prop :=
  ∀ request (c : Chain ε), c.WrittenAt accepted (target request c) (dialect.fulfil request c)

namespace BindingRequest

variable [BEq ν]

/-- Whether an answer says that the request could be fulfilled. -/
def accepted : Except Fault (BindingAnswer κ ν) → Bool
  | .ok (.replacedAt outcome) => outcome.isOk
  | .ok (.outcome outcome) => outcome.isOk
  | .ok _ => true
  | .error _ => false

/-- The index of the frame that a request writes to, if it writes at all. -/
def target (request : BindingRequest κ ν) (c : Bindings κ ν) : Option Nat :=
  match request with
  | .declare _ _ => some (c.depth - 1)
  | .declareAt index _ _ => if index < c.depth then some index else none
  | .overwrite key _ | .assign key _ | .delete key => c.resolve key
  | .overwriteBelow index key _ => c.innermost? index key
  | .deleteLocal key => if c.hasLocal key then some (c.depth - 1) else none
  | .get _ | .getBelow _ _ | .has _ | .hasLocal _ | .hasAt _ _ | .resolve _ | .demand _ | .keys => none

/-- A chain of bindings writes to the target of a request and to no other frame. -/
theorem writesTo_target [Ord κ] [Display κ] [Display ν] :
    (dialect : Dialect (Binding κ ν) _ _).WritesTo accepted target := by
  intro request c
  cases request with
  | declare key value =>
      exact (c.writtenAt_insert ⟨key, value⟩).map accepted
        (fun replaced => .ok (.replaced (replaced.map Binding.value))) fun _ _ => rfl
  | declareAt index key value =>
      exact ((c.writtenAt_insertAt index ⟨key, value⟩).map_isOk (Option.map Binding.value)).map
        accepted (fun outcome => .ok (.replacedAt outcome)) fun _ h => h
  | overwrite key value | assign key value =>
      rw [target, Chain.resolve_eq_innermost?]
      exact (Bindings.writtenAt_modifyBelow c c.depth key fun _ => value).map accepted
        (fun outcome => .ok (.outcome outcome)) fun _ h => h
  | overwriteBelow index key value =>
      exact (Bindings.writtenAt_modifyBelow c index key fun _ => value).map accepted
        (fun outcome => .ok (.outcome outcome)) fun _ h => h
  | delete key =>
      exact ((c.writtenAt_erase key).map_isOk Binding.value).map accepted
        (fun outcome => .ok (.outcome outcome)) fun _ h => h
  | deleteLocal key =>
      exact ((c.writtenAt_eraseLocal key).map_isOk Binding.value).map accepted
        (fun outcome => .ok (.outcome outcome)) fun _ h => h
  | demand key =>
      change c.WrittenAt accepted none ((demand key).fulfil c)
      rw [← Prod.eta ((demand key).fulfil c), fulfil_demand]
      exact .nowhere _
  | get _ | getBelow _ _ | has _ | hasLocal _ | hasAt _ _ | resolve _ | keys => exact .nowhere _

end BindingRequest

namespace NameRequest

/-- Whether an answer says that the request could be fulfilled. -/
def accepted : Except Fault (NameAnswer κ) → Bool
  | .ok (.added outcome) => outcome.isOk
  | .ok (.outcome outcome) => outcome.isOk
  | .ok _ => true
  | .error _ => false

/-- The index of the frame that a request writes to, if it writes at all. -/
def target (request : NameRequest κ) (c : Names κ) : Option Nat :=
  match request with
  | .add _ => some (c.depth - 1)
  | .addAt index _ => if index < c.depth then some index else none
  | .delete key => c.resolve key
  | .deleteLocal key => if c.hasLocal key then some (c.depth - 1) else none
  | .get _ | .has _ | .hasLocal _ | .hasAt _ _ | .resolve _ => none

/-- A chain of names writes to the target of a request and to no other frame. -/
theorem writesTo_target [Display κ] :
    (dialect : Dialect (Member κ) _ _).WritesTo accepted target := by
  intro request c
  cases request with
  | add key =>
      exact (c.writtenAt_insert ⟨key⟩).map accepted (fun replaced => .ok (.flag replaced.isNone))
        fun _ _ => rfl
  | addAt index key =>
      exact ((c.writtenAt_insertAt index ⟨key⟩).map_isOk Option.isNone).map accepted
        (fun outcome => .ok (.added outcome)) fun _ h => h
  | delete key =>
      exact ((c.writtenAt_erase key).map_isOk Member.key).map accepted
        (fun outcome => .ok (.outcome outcome)) fun _ h => h
  | deleteLocal key =>
      exact ((c.writtenAt_eraseLocal key).map_isOk Member.key).map accepted
        (fun outcome => .ok (.outcome outcome)) fun _ h => h
  | get _ | has _ | hasLocal _ | hasAt _ _ | resolve _ => exact .nowhere _

end NameRequest

/-! ## Steps above a depth -/

namespace Session

variable {ι ρ : Type} {dialect : Dialect ε ι ρ} {accepted : Except Fault ρ → Bool}
  {target : ι → Chain ε → Option Nat}

/--
The step begins with more frames than the given number and does not write to so many of
the outermost ones, nor does it go back to a saved copy.
-/
def Step.Above (target : ι → Chain ε → Option Nat) (d : Nat) (step : Step ε ι) (s : Session ε) :
    Prop :=
  d < s.chain.depth ∧
    match step with
    | .keyed request => ∀ i ∈ target request s.chain, d ≤ i
    | .restore _ => False
    | .push _ | .pop | .take | .save | .record _ => True

instance (target : ι → Chain ε → Option Nat) (d : Nat) (step : Step ε ι) (s : Session ε) :
    Decidable (step.Above target d s) :=
  match step with
  | .keyed request =>
    inferInstanceAs (Decidable (d < s.chain.depth ∧ ∀ i ∈ target request s.chain, d ≤ i))
  | .restore _ => inferInstanceAs (Decidable (d < s.chain.depth ∧ False))
  | .push _ | .pop | .take | .save | .record _ =>
    inferInstanceAs (Decidable (d < s.chain.depth ∧ True))

/-- The chain makes the same frames as the other one, and so many outermost ones are the same. -/
structure SameBelow (d : Nat) (c : Chain ε) (s : Session ε) : Prop where
  label : s.chain.hasher = c.hasher
  frames : s.chain.stack.keep d = c.stack.keep d

/-- A step above a depth leaves the frames below it. -/
theorem Step.sameBelow_after (hdialect : dialect.WritesTo accepted target) {d : Nat} (hd : 0 < d)
    {c : Chain ε} (step : Step ε ι) (s : Session ε) (habove : step.Above target d s)
    (hs : SameBelow d c s) : SameBelow d c (step.after dialect s) := by
  rcases habove with ⟨hdepth, habove⟩
  have hpop : s.chain.stack.pop.2.keep d = c.stack.keep d :=
    (s.chain.stack.keep_pop hd hdepth).trans hs.frames
  cases step with
  | keyed request =>
      have habove : ∀ i ∈ target request s.chain, d ≤ i := habove
      have hwritten := hdialect request s.chain
      -- At most the target is another frame now, and it is not one of the outermost ones.
      rw [Step.after]
      generalize dialect.fulfil request s.chain = outcome at hwritten
      generalize target request s.chain = written at hwritten habove
      cases hwritten with
      | nowhere answer => exact hs
      | @frame i hi answer _ changed =>
          exact ⟨hs.label, (s.chain.stack.keep_setFrame hd (habove i rfl) changed).trans hs.frames⟩
  | push frame =>
      exact ⟨hs.label, (s.chain.stack.keep_push frame hd (Nat.le_of_lt hdepth)).trans hs.frames⟩
  | pop | take => exact ⟨hs.label, hpop⟩
  | save | record log => exact ⟨hs.label, hs.frames⟩
  | restore copy => exact habove.elim

/-! ## Scopes -/

variable [Ord κ]

/-- A scope whose body stays above the depth at the start ends in the chain that it began with. -/
theorem chain_after_scope (hdialect : dialect.WritesTo accepted target) (body : List (Command ε ι))
    (s inner : Session ε) (answers : List (Answer ε ρ × Nat))
    (hbody : execAll dialect body (s.opened 1) = .ok answers inner)
    (habove : Throughout dialect (Step.Above target s.chain.depth)
      (stepsAll dialect body (s.opened 1)) (s.opened 1)) :
    ∃ after, exec dialect (.scope body) s = .ok (.answers answers) after ∧
      after.chain = s.chain := by
  have hdepth : 0 < s.chain.depth := s.chain.stack.depth_pos
  have hopened : SameBelow s.chain.depth s.chain (s.opened 1) :=
    ⟨rfl, s.chain.stack.keep_push _ hdepth (Nat.le_refl _)⟩
  have hinner : SameBelow s.chain.depth s.chain inner := by
    have hlast := traces_execAll dialect body (s.opened 1)
    rw [hbody, lastOf_ok] at hlast
    rw [hlast]
    exact habove.replay (Step.sameBelow_after hdialect hdepth) hopened
  -- The clean-up keeps just the frames that there were at the start.
  have hframes : inner.chain.stack.keep s.chain.depth = s.chain.stack :=
    hinner.frames.trans (s.chain.stack.keep_of_depth_le (Nat.le_refl _))
  refine ⟨inner.unwoundTo s.chain.depth, ?_, ?_⟩
  · rw [exec]
    simp only [Functor.map, EStateM.map, inScope_eq, hbody]
  · change (⟨inner.chain.hasher, inner.chain.stack.keep s.chain.depth⟩ : Chain ε) = s.chain
    rw [hframes, hinner.label]

/--
A scope around commands that stay above the depth at its start ends in the chain that it
began with: the same frames with the same entries, spellings and hashers.  Every step of the
commands, the pops at the end of inner scopes included, has to begin with more frames than
there were at the start; what a step writes to has to be one of the frames above those; and
no step goes back to a saved copy.  Look-ups may reach any frame, and so may writes that fail.
-/
theorem scope_restores_chain {ν : Type} [BEq ν] [Display κ] [Display ν] :
    (∀ (body : List (Command (Binding κ ν) (BindingRequest κ ν))) (s inner : Session (Binding κ ν))
      (answers : List (Answer (Binding κ ν) (BindingAnswer κ ν) × Nat)),
      execAll BindingRequest.dialect body (s.opened 1) = .ok answers inner →
      Throughout BindingRequest.dialect (Step.Above BindingRequest.target s.chain.depth)
        (stepsAll BindingRequest.dialect body (s.opened 1)) (s.opened 1) →
      ∃ after, exec BindingRequest.dialect (.scope body) s = .ok (.answers answers) after ∧
        after.chain = s.chain) ∧
    (∀ (body : List (Command (Member κ) (NameRequest κ))) (s inner : Session (Member κ))
      (answers : List (Answer (Member κ) (NameAnswer κ) × Nat)),
      execAll NameRequest.dialect body (s.opened 1) = .ok answers inner →
      Throughout NameRequest.dialect (Step.Above NameRequest.target s.chain.depth)
        (stepsAll NameRequest.dialect body (s.opened 1)) (s.opened 1) →
      ∃ after, exec NameRequest.dialect (.scope body) s = .ok (.answers answers) after ∧
        after.chain = s.chain) :=
  ⟨chain_after_scope BindingRequest.writesTo_target, chain_after_scope NameRequest.writesTo_target⟩

/--
The body shadows a key of the root, rebinds and removes it from inside a scope of its own,
declares by index into the frame of the scope, fails to declare out of range, and leaves a
frame behind.
-/
theorem scope_restores_chain_shadowed :
    let dialect : Dialect (Binding Int64 Value) _ _ := BindingRequest.dialect
    let s := (start .standard (.seeded [⟨7, .null⟩, ⟨8, .null⟩]) : Session (Binding Int64 Value))
    let body := [.keyed (.declare 7 (.bool true)), .scope [.push, .keyed (.assign 7 (.bool false)),
      .pop, .keyed (.delete 7), .keyed (.declareAt 1 8 (.bool true))],
      .keyed (.declareAt 9 7 .null), .keyed (.get 7), .push]
    ∃ answers inner after,
      execAll dialect body (s.opened 1) = .ok answers inner ∧
      inner.chain.depth = 3 ∧
      exec dialect (.scope body) s = .ok (.answers answers) after ∧
      after.chain = s.chain := by
  intro dialect s body
  obtain ⟨answers, inner, hbody, hdepth⟩ :
      ∃ answers inner, execAll dialect body (s.opened 1) = .ok answers inner ∧
        (inner.chain.depth == 3) = true :=
    exists_ok_of_last (by decide +kernel)
  rw [beq_iff_eq] at hdepth
  have habove : Throughout dialect (Step.Above BindingRequest.target s.chain.depth)
      (stepsAll dialect body (s.opened 1)) (s.opened 1) := by decide +kernel
  rcases scope_restores_chain.1 body s inner answers hbody habove with ⟨after, hexec, hchain⟩
  exact ⟨answers, inner, after, hbody, hdepth, hexec, hchain⟩

end Session
end LexicalScope
