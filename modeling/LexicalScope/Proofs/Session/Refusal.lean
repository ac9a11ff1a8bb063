import LexicalScope.Proofs.Session.Confinement

/-!
# Requests that are refused

A request is refused for exactly one reason each: the root would be popped, there is no frame
with the index, no frame that is searched holds the key, or the current frame does not hold
it.  The reason can be told from the chain before the request, and it decides the error that
is answered.

A refused request has not begun to change anything.  The session after it is the one before
it, but for the event that tells of a refused pop.

Main results:

- Theorems {lit}`Chain.lookupBelow_eq_error_iff`, {lit}`Chain.insertAt_fst_eq_error_iff`,
  {lit}`Chain.changeBelow_fst_eq_error_iff` and {lit}`Chain.eraseLocal_fst_eq_error_iff`: when
  the operations on keys fail, and with which error.
- Theorems {lit}`BindingRequest.refuses` and {lit}`NameRequest.refuses`: which requests about
  keys are refused.
- Theorem {lit}`Session.refused_iff`: a command answers an error if and only if there is reason
  to refuse it, and then it leaves the session as it is.
-/

namespace LexicalScope

variable {ε ι ρ κ ν : Type} [Entry ε κ] [BEq κ]

/-- To change what is answered in case of success does not change the errors. -/
theorem map_eq_error_iff {α β : Type} (outcome : Except Error α) (f : α → β) (e : Error) :
    outcome.map f = .error e ↔ outcome = .error e := by
  cases outcome <;> simp [Except.map]

/-! ## Operations that fail -/

namespace Chain

/-- None of the frames below an index holds the key. -/
def FreeBelow (c : Chain ε) (x : Nat) (k : κ) : Prop :=
  ∀ i < min x c.depth, ∀ frame, c.stack.frame? i = some frame → frame.contains k = false

/-- No frame below an index holds a key if and only if a search there finds none. -/
theorem freeBelow_iff (c : Chain ε) (x : Nat) (k : κ) :
    c.FreeBelow x k ↔ c.innermost? x k = none := by
  have hheld : ∀ i, c.hasAt i k = false ↔
      ∀ frame, c.stack.frame? i = some frame → frame.contains k = false := by
    intro i
    rw [hasAt]
    cases c.stack.frame? i <;> simp
  rw [innermost?_eq_none_iff, FreeBelow]
  simp only [hheld]

/-- A look-up fails if and only if no frame that it searches holds the key. -/
theorem lookupBelow_eq_error_iff (c : Chain ε) (x : Nat) (k : κ) (e : Error) :
    c.lookupBelow x k = .error e ↔ c.FreeBelow x k ∧ e = .keyNotFound := by
  rw [freeBelow_iff]
  cases h : c.innermost? x k with
  | none => simp [lookupBelow_of_none h, eq_comm]
  | some i =>
      rcases lookupBelow_of_innermost? h with ⟨_, entry, -, -, hfound⟩
      simp [hfound]

/-- A change fails if and only if no frame that it searches holds the key. -/
theorem changeBelow_fst_eq_error_iff {change : Frame ε → Option (ε × Frame ε)} {k : κ}
    (hchange : ∀ frame, (change frame).isSome = frame.contains k) (c : Chain ε) (x : Nat)
    (e : Error) : (c.changeBelow x change).1 = .error e ↔ c.FreeBelow x k ∧ e = .keyNotFound := by
  rw [freeBelow_iff]
  cases h : c.innermost? x k with
  | none => simp [changeBelow_of_none hchange h, eq_comm]
  | some i =>
      rcases changeBelow_of_innermost? hchange h with ⟨_, entry, _, -, -, hfound⟩
      simp [hfound]

/-- Erasing a key is refused if and only if no frame holds it. -/
theorem erase_fst_eq_error_iff (c : Chain ε) (k : κ) (e : Error) :
    (c.erase k).1 = .error e ↔ c.FreeBelow c.depth k ∧ e = .keyNotFound :=
  changeBelow_fst_eq_error_iff (fun frame => frame.erase?_isSome k) c c.depth e

/-- Inserting by index fails if and only if there is no frame with the index. -/
theorem insertAt_fst_eq_error_iff (c : Chain ε) (i : Nat) (entry : ε) (e : Error) :
    (c.insertAt i entry).1 = .error e ↔ c.depth ≤ i ∧ e = .outOfRange i c.depth := by
  by_cases hi : i < c.depth
  · rcases c.stack.exists_frame? hi with ⟨frame, hframe⟩
    simp [insertAt_of_frame? hframe, Nat.not_le.mpr hi]
  · have hle : c.depth ≤ i := Nat.not_lt.mp hi
    simp [insertAt_of_depth_le hle, hle, eq_comm]

/-- Erasing in the current frame fails if and only if that frame does not hold the key. -/
theorem eraseLocal_fst_eq_error_iff (c : Chain ε) (k : κ) (e : Error) :
    (c.eraseLocal k).1 = .error e ↔
      c.stack.top.contains k = false ∧ e = .notInCurrentScope := by
  have hheld : (c.stack.top.erase? k).isSome = c.stack.top.contains k :=
    c.stack.top.erase?_isSome k
  rw [← hheld]
  cases h : c.stack.top.erase? k with
  | none => simp [eraseLocal_of_none h, eq_comm]
  | some held => simp [eraseLocal_of_erase? h]

/-- Popping fails if and only if only the root is left, which stays. -/
theorem pop_fst_eq_error_iff (c : Chain ε) (e : Error) :
    c.pop.1 = .error e ↔ c.depth = 1 ∧ e = .underflow :=
  c.stack.pop_fst_eq_error_iff e

/-- The root alone is not popped. -/
theorem pop_of_depth_eq_one (c : Chain ε) (h : c.depth = 1) : c.pop = (.error .underflow, c) := by
  rw [pop, c.stack.pop_of_depth_eq_one h]

end Chain

/-! ## Requests about keys -/

/-- The error that is answered, unless there was a fault. -/
def errorOf (error? : ρ → Option Error) : Except Fault ρ → Option Error
  | .ok answer => error? answer
  | .error _ => none

/--
The error that a request is answered with is known from the chain before it, and the chain
after it is then the same.
-/
structure Dialect.Refuses (dialect : Dialect ε ι ρ) (error? : ρ → Option Error)
    (refused : ι → Chain ε → Error → Prop) : Prop where
  error_iff : ∀ request c e,
    errorOf error? (dialect.fulfil request c).1 = some e ↔ refused request c e
  unchanged : ∀ request c e, refused request c e → (dialect.fulfil request c).2 = c

/-- What is refused is not accepted, and so it is not written either. -/
theorem Dialect.Refuses.of_writesTo {dialect : Dialect ε ι ρ} {error? : ρ → Option Error}
    {refused : ι → Chain ε → Error → Prop} {accepted : Except Fault ρ → Bool}
    {target : ι → Chain ε → Option Nat} (hdialect : dialect.WritesTo accepted target)
    (haccepted : ∀ outcome e, errorOf error? outcome = some e → accepted outcome = false)
    (herror : ∀ request c e,
      errorOf error? (dialect.fulfil request c).1 = some e ↔ refused request c e) :
    dialect.Refuses error? refused where
  error_iff := herror
  unchanged request c e h :=
    (hdialect request c).eq_of_refused (haccepted _ e ((herror request c e).mpr h))

namespace BindingAnswer

/-- The error that an answer reports. -/
def error? : BindingAnswer κ ν → Option Error
  | .replacedAt (.error e) | .outcome (.error e) => some e
  | .replaced _ | .replacedAt (.ok _) | .outcome (.ok _) => none
  | .flag _ | .index _ | .value _ | .keys _ => none

omit [BEq κ] in
/-- The answer to a declaration by index is an error if and only if the declaration is refused. -/
theorem error?_replacedAt_iff (outcome : Except Error (Option ν)) (e : Error) :
    (replacedAt outcome : BindingAnswer κ ν).error? = some e ↔ outcome = .error e := by
  cases outcome <;> simp [error?]

omit [BEq κ] in
/-- An answer with a value is an error if and only if the request is refused. -/
theorem error?_outcome_iff (outcome : Except Error ν) (e : Error) :
    (BindingAnswer.outcome outcome : BindingAnswer κ ν).error? = some e ↔ outcome = .error e := by
  cases outcome <;> simp [error?]

end BindingAnswer

namespace BindingRequest

variable [BEq ν]

/-- There is reason to answer a request with the error. -/
def Refused (request : BindingRequest κ ν) (c : Bindings κ ν) (e : Error) : Prop :=
  match request with
  | .declareAt index _ _ => c.depth ≤ index ∧ e = .outOfRange index c.depth
  | .get key | .overwrite key _ | .assign key _ | .delete key =>
    c.FreeBelow c.depth key ∧ e = .keyNotFound
  | .getBelow index key | .overwriteBelow index key _ => c.FreeBelow index key ∧ e = .keyNotFound
  | .deleteLocal key => c.stack.top.contains key = false ∧ e = .notInCurrentScope
  | .declare _ _ | .has _ | .hasLocal _ | .hasAt _ _ | .resolve _ | .demand _ | .keys => False

/-- A request to a chain of bindings answers an error if and only if it is refused with it. -/
theorem errorOf_fulfil_iff [Ord κ] (request : BindingRequest κ ν) (c : Bindings κ ν) (e : Error) :
    errorOf BindingAnswer.error? (request.fulfil c).1 = some e ↔ request.Refused c e := by
  have hmodify : ∀ x key (f : ν → ν), (c.modifyBelow x key f).1 = .error e ↔
      c.FreeBelow x key ∧ e = .keyNotFound := by
    intro x key f
    exact (map_eq_error_iff _ _ e).trans
      (Chain.changeBelow_fst_eq_error_iff (fun frame => frame.modify?_isSome key f) c x e)
  cases request with
  | declareAt index key value =>
      refine (BindingAnswer.error?_replacedAt_iff _ e).trans ((map_eq_error_iff _ _ e).trans ?_)
      exact c.insertAt_fst_eq_error_iff index _ e
  | get key =>
      refine (BindingAnswer.error?_outcome_iff _ e).trans ((map_eq_error_iff _ _ e).trans ?_)
      exact c.lookupBelow_eq_error_iff c.depth key e
  | getBelow index key =>
      refine (BindingAnswer.error?_outcome_iff _ e).trans ((map_eq_error_iff _ _ e).trans ?_)
      exact c.lookupBelow_eq_error_iff index key e
  | overwrite key value | assign key value =>
      exact (BindingAnswer.error?_outcome_iff _ e).trans (hmodify c.depth key _)
  | overwriteBelow index key value =>
      exact (BindingAnswer.error?_outcome_iff _ e).trans (hmodify index key _)
  | delete key =>
      refine (BindingAnswer.error?_outcome_iff _ e).trans ((map_eq_error_iff _ _ e).trans ?_)
      exact c.erase_fst_eq_error_iff key e
  | deleteLocal key =>
      refine (BindingAnswer.error?_outcome_iff _ e).trans ((map_eq_error_iff _ _ e).trans ?_)
      exact c.eraseLocal_fst_eq_error_iff key e
  | demand key =>
      -- A demand is answered with a value, or it is a fault, which is no answer.
      simp only [fulfil, Refused, iff_false]
      cases c.get key <;> simp [errorOf, BindingAnswer.error?]
  | declare key value => simp [fulfil, Refused, errorOf, BindingAnswer.error?]
  | has | hasLocal | hasAt | resolve | keys =>
      simp [fulfil, Refused, errorOf, BindingAnswer.error?]

/-- A chain of bindings refuses requests as said, and leaves itself as it is. -/
theorem refuses [Ord κ] [Display κ] [Display ν] :
    (dialect : Dialect (Binding κ ν) _ _).Refuses BindingAnswer.error? Refused := by
  refine .of_writesTo writesTo_target ?_ errorOf_fulfil_iff
  rintro (_ | answer) e h
  · rfl
  · cases answer with
    | replacedAt outcome =>
        rw [(BindingAnswer.error?_replacedAt_iff outcome e).mp h]
        rfl
    | outcome outcome =>
        rw [(BindingAnswer.error?_outcome_iff outcome e).mp h]
        rfl
    | replaced | flag | index | value | keys => cases h

end BindingRequest

namespace NameAnswer

/-- The error that an answer reports. -/
def error? : NameAnswer κ → Option Error
  | .added (.error e) | .outcome (.error e) => some e
  | .added (.ok _) | .outcome (.ok _) | .flag _ | .index _ => none

omit [BEq κ] in
/-- The answer to an addition by index is an error if and only if the addition is refused. -/
theorem error?_added_iff (outcome : Except Error Bool) (e : Error) :
    (added outcome : NameAnswer κ).error? = some e ↔ outcome = .error e := by
  cases outcome <;> simp [error?]

omit [BEq κ] in
/-- An answer with a name is an error if and only if the request is refused. -/
theorem error?_outcome_iff (outcome : Except Error κ) (e : Error) :
    (NameAnswer.outcome outcome).error? = some e ↔ outcome = .error e := by
  cases outcome <;> simp [error?]

end NameAnswer

namespace NameRequest

/-- There is reason to answer a request with the error. -/
def Refused (request : NameRequest κ) (c : Names κ) (e : Error) : Prop :=
  match request with
  | .addAt index _ => c.depth ≤ index ∧ e = .outOfRange index c.depth
  | .get key | .delete key => c.FreeBelow c.depth key ∧ e = .keyNotFound
  | .deleteLocal key => c.stack.top.contains key = false ∧ e = .notInCurrentScope
  | .add _ | .has _ | .hasLocal _ | .hasAt _ _ | .resolve _ => False

/-- A request to a chain of names answers an error if and only if it is refused with it. -/
theorem errorOf_fulfil_iff (request : NameRequest κ) (c : Names κ) (e : Error) :
    errorOf NameAnswer.error? (request.fulfil c).1 = some e ↔ request.Refused c e := by
  cases request with
  | addAt index key =>
      refine (NameAnswer.error?_added_iff _ e).trans ((map_eq_error_iff _ _ e).trans ?_)
      exact c.insertAt_fst_eq_error_iff index _ e
  | get key =>
      refine (NameAnswer.error?_outcome_iff _ e).trans ((map_eq_error_iff _ _ e).trans ?_)
      exact c.lookupBelow_eq_error_iff c.depth key e
  | delete key =>
      refine (NameAnswer.error?_outcome_iff _ e).trans ((map_eq_error_iff _ _ e).trans ?_)
      exact c.erase_fst_eq_error_iff key e
  | deleteLocal key =>
      refine (NameAnswer.error?_outcome_iff _ e).trans ((map_eq_error_iff _ _ e).trans ?_)
      exact c.eraseLocal_fst_eq_error_iff key e
  | add | has | hasLocal | hasAt | resolve =>
      simp [fulfil, Refused, errorOf, NameAnswer.error?]

/-- A chain of names refuses requests as said, and leaves itself as it is. -/
theorem refuses [Display κ] :
    (dialect : Dialect (Member κ) _ _).Refuses NameAnswer.error? Refused := by
  refine .of_writesTo writesTo_target ?_ errorOf_fulfil_iff
  rintro (_ | answer) e h
  · rfl
  · cases answer with
    | added outcome =>
        rw [(NameAnswer.error?_added_iff outcome e).mp h]
        rfl
    | outcome outcome =>
        rw [(NameAnswer.error?_outcome_iff outcome e).mp h]
        rfl
    | flag | index => cases h

end NameRequest

/-! ## Commands -/

/-- The error that an answer reports; the answers to commands within a command have their own. -/
def Answer.error? (keyed? : ρ → Option Error) : Answer ε ρ → Option Error
  | .keyed answer => keyed? answer
  | .popped (.error e) => some e
  | _ => none

/-- There is reason to answer a command with the error. -/
def Command.Refused (refused : ι → Chain ε → Error → Prop) (command : Command ε ι) (c : Chain ε)
    (e : Error) : Prop :=
  match command with
  | .keyed request => refused request c e
  | .pop => c.depth = 1 ∧ e = .underflow
  | _ => False

namespace Session

/-- The session after a command was refused: only a refused pop is recorded. -/
def afterRefusal (s : Session ε) : Command ε ι → Session ε
  | .pop => { s with log := s.log.push .refused }
  | _ => s

/-- A refused pop leaves the session as it is, but for its event. -/
theorem afterPop_of_depth_eq_one {s : Session ε} (h : s.chain.depth = 1) :
    s.afterPop = { s with log := s.log.push .refused } := by
  rw [afterPop, s.chain.pop_of_depth_eq_one h]
  rfl

/-! ### Commands that are never refused -/

/-- The computation answers no error. -/
def NeverRefused (keyed? : ρ → Option Error) (m : Run ε (Answer ε ρ)) : Prop :=
  ∀ s answer after, m s = .ok answer after → answer.error? keyed? = none

namespace NeverRefused

variable {keyed? : ρ → Option Error} {α : Type}

theorem pure {answer : Answer ε ρ} (h : answer.error? keyed? = none) :
    NeverRefused keyed? (Pure.pure answer) := by
  intro s answer' after heq
  cases heq
  exact h

/-- What is never refused whatever was done before is never refused. -/
theorem bind (m : Run ε α) {f : α → Run ε (Answer ε ρ)} (hf : ∀ a, NeverRefused keyed? (f a)) :
    NeverRefused keyed? (m >>= f) := by
  intro s answer after heq
  simp only [Bind.bind, EStateM.bind] at heq
  cases hm : m s with
  | ok a middle =>
      rw [hm] at heq
      exact hf a middle answer after heq
  | error fault middle =>
      rw [hm] at heq
      cases heq

/-- An answer that is made of whatever was found is not refused if it is no error. -/
theorem map (m : Run ε α) {f : α → Answer ε ρ} (hf : ∀ a, (f a).error? keyed? = none) :
    NeverRefused keyed? (f <$> m) := by
  rw [← bind_pure_comp]
  exact bind m fun a => pure (hf a)

end NeverRefused

variable [Ord κ]

/-- Only pops and requests about keys answer errors. -/
theorem neverRefused_exec (dialect : Dialect ε ι ρ) (keyed? : ρ → Option Error)
    (command : Command ε ι) (hpop : command ≠ .pop) (hkeyed : ∀ request, command ≠ .keyed request) :
    NeverRefused keyed? (exec dialect command) := by
  cases command with
  | keyed request => exact absurd rfl (hkeyed request)
  | pop => exact absurd rfl hpop
  | push =>
      rw [exec]
      exact .bind _ fun _ => .pure rfl
  | pushFrame entries mark =>
      rw [exec]
      exact .bind _ fun _ => .bind _ fun _ => .pure rfl
  | pushPopped =>
      rw [exec]
      refine .bind _ fun s => ?_
      cases s.popped with
      | none => exact .pure rfl
      | some frame => exact .bind _ fun _ => .pure rfl
  | rounds n body =>
      rw [exec]
      refine .bind _ fun last => ?_
      cases last <;> exact .pure rfl
  | save =>
      intro s answer after heq
      rw [exec_save] at heq
      cases heq
      rfl
  | restore copy =>
      rw [exec]
      refine .bind _ fun s => ?_
      cases s.saved[copy]? with
      | none => exact .pure rfl
      | some c => exact .bind _ fun _ => .pure rfl
  | equalsSaved copy | stackEqualsSaved copy =>
      rw [exec]
      refine .bind _ fun s => ?_
      cases s.saved[copy]? with
      | none => exact .pure rfl
      | some c => exact .map _ fun _ => rfl
  | equalsOther start mark body =>
      rw [exec]
      exact .bind _ fun _ => .bind _ fun _ => .map _ fun _ => rfl
  | visibleHints =>
      intro s answer after heq
      rw [exec] at heq
      cases heq
      rfl
  | depth | scope | nest | hashers | root | top | frame | frames | framesBelow | positionOfSize
  | visible | visibleFrames | display =>
      rw [exec]
      exact .map _ fun _ => rfl

/--
A command answers an error if and only if there is reason to refuse it, and then the session
after it is the session before it, but for the event of a refused pop.
-/
theorem exec_error_iff {dialect : Dialect ε ι ρ} {keyed? : ρ → Option Error}
    {refused : ι → Chain ε → Error → Prop} (h : dialect.Refuses keyed? refused)
    (command : Command ε ι) (s after : Session ε) (e : Error) :
    (∃ answer, exec dialect command s = .ok answer after ∧ answer.error? keyed? = some e) ↔
      command.Refused refused s.chain e ∧ after = s.afterRefusal command := by
  by_cases hpop : command = .pop
  · subst hpop
    rw [exec_pop]
    constructor
    · rintro ⟨answer, heq, herror⟩
      cases houtcome : s.chain.pop.1 with
      | ok frame =>
          rw [houtcome] at heq
          cases heq
          cases herror
      | error e' =>
          rw [houtcome] at heq
          cases heq
          cases herror
          have hdepth := (s.chain.pop_fst_eq_error_iff e).mp houtcome
          refine ⟨hdepth, ?_⟩
          rw [afterPop_of_depth_eq_one hdepth.1]
          rfl
    · rintro ⟨⟨hdepth, rfl⟩, rfl⟩
      refine ⟨.popped (.error .underflow), ?_, rfl⟩
      rw [s.chain.pop_of_depth_eq_one hdepth, afterPop_of_depth_eq_one hdepth]
      rfl
  · by_cases hkeyed : ∃ request, command = .keyed request
    · rcases hkeyed with ⟨request, rfl⟩
      have herror := h.error_iff request s.chain e
      have hunchanged := h.unchanged request s.chain e
      rw [exec_keyed]
      change _ ↔ refused request s.chain e ∧ after = s
      rw [← herror] at hunchanged ⊢
      generalize dialect.fulfil request s.chain = outcome at hunchanged ⊢
      rcases outcome with ⟨fault | answer, c⟩
      · simp [errorOf]
      · constructor
        · rintro ⟨_, heq, hanswer⟩
          cases heq
          have hc : c = s.chain := hunchanged hanswer
          exact ⟨hanswer, by rw [hc]⟩
        · rintro ⟨hanswer, rfl⟩
          have hc : c = after.chain := hunchanged hanswer
          exact ⟨.keyed answer, by rw [hc], hanswer⟩
    · have hnever := neverRefused_exec dialect keyed? command hpop fun request heq =>
        hkeyed ⟨request, heq⟩
      constructor
      · rintro ⟨answer, heq, herror⟩
        rw [hnever s answer after heq] at herror
        cases herror
      · rintro ⟨hrefused, -⟩
        cases command with
        | keyed request => exact absurd ⟨request, rfl⟩ hkeyed
        | pop => exact absurd rfl hpop
        | _ => cases hrefused

/--
Refusals in chains of bindings and in chains of names.  A pop is refused with an underflow at
depth one; what is put in by index is out of range from the depth on, and the error carries the
index and the depth; a key is not found if no frame that is searched holds it; and a key is not
in the current scope if the current frame does not hold it.  Nothing else is ever answered with
an error, and a refused command leaves the session as it is, but for the event of a refused pop.
-/
theorem refused_iff [BEq ν] [Display κ] [Display ν] :
    (∀ (command : Command (Binding κ ν) (BindingRequest κ ν)) (s after : Session (Binding κ ν))
      (e : Error),
      (∃ answer, exec BindingRequest.dialect command s = .ok answer after ∧
        answer.error? BindingAnswer.error? = some e) ↔
      command.Refused BindingRequest.Refused s.chain e ∧ after = s.afterRefusal command) ∧
    (∀ (command : Command (Member κ) (NameRequest κ)) (s after : Session (Member κ)) (e : Error),
      (∃ answer, exec NameRequest.dialect command s = .ok answer after ∧
        answer.error? NameAnswer.error? = some e) ↔
      command.Refused NameRequest.Refused s.chain e ∧ after = s.afterRefusal command) :=
  ⟨exec_error_iff BindingRequest.refuses, exec_error_iff NameRequest.refuses⟩

end Session
end LexicalScope
