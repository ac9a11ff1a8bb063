import LexicalScope.Proofs.Session.Effect
import LexicalScope.Session.BindingRequest
import LexicalScope.Session.NameRequest

/-!
# Invariants of sessions

A property of sessions that holds before a computation and still holds after it,
also when a fault ends the computation in the middle.  Scopes, rounds and second
chains only run what they are given, so a property that the single operations keep
is kept by every command, however deep it is nested.

Main results:

- Theorem {lit}`Session.Keeps.inScope`: a scope keeps what its body, opening a scope and
  popping keep.
- Theorem {lit}`Session.Invariant.exec`: what the single operations keep, every command
  keeps.
- Theorem {lit}`Session.invariant_sameLabel`: a chain and its saved copies go on giving new
  frames the hasher that they give them now.
-/

namespace LexicalScope
namespace Session

variable {ε ι ρ κ α β : Type} [Entry ε κ] [BEq κ]

/-! ## Computations that keep a property -/

/-- The session in which a computation ends, whether a fault ends it or not. -/
def lastOf : EStateM.Result Fault (Session ε) α → Session ε
  | .ok _ s => s
  | .error _ s => s

@[simp]
theorem lastOf_ok (a : α) (s : Session ε) : lastOf (.ok a s) = s :=
  rfl

@[simp]
theorem lastOf_error (fault : Fault) (s : Session ε) :
    lastOf (.error fault s : EStateM.Result Fault (Session ε) α) = s :=
  rfl

/-- A check of the last session that fails on faults shows that there was none. -/
theorem exists_ok_of_last {outcome : EStateM.Result Fault (Session ε) α} {p : Session ε → Bool}
    (h : (match outcome with | .ok _ last => p last | .error _ _ => false) = true) :
    ∃ answer last, outcome = .ok answer last ∧ p last = true := by
  cases outcome with
  | ok answer last => exact ⟨answer, last, rfl, h⟩
  | error fault last => cases h

/-- What holds of the session before the computation still holds of the session in which it ends. -/
def Keeps (P : Session ε → Prop) (m : Run ε α) : Prop :=
  ∀ s, P s → P (lastOf (m s))

namespace Keeps

variable {P : Session ε → Prop}

theorem pure (a : α) : Keeps P (Pure.pure a : Run ε α) :=
  fun _ hs => hs

/-- Computations that keep a property one after the other keep it together. -/
theorem bind {m : Run ε α} {f : α → Run ε β} (hm : Keeps P m) (hf : ∀ a, Keeps P (f a)) :
    Keeps P (m >>= f) := by
  intro s hs
  have hfirst := hm s hs
  simp only [Bind.bind, EStateM.bind]
  cases h : m s with
  | ok a middle =>
      rw [h] at hfirst
      exact hf a middle hfirst
  | error fault middle =>
      rw [h] at hfirst
      exact hfirst

/-- Mapping the answer keeps what the computation keeps. -/
theorem map {m : Run ε α} (f : α → β) (hm : Keeps P m) : Keeps P (f <$> m) := by
  intro s hs
  have hlast := hm s hs
  simp only [Functor.map, EStateM.map]
  cases h : m s with
  | ok a last =>
      rw [h] at hlast
      exact hlast
  | error fault last =>
      rw [h] at hlast
      exact hlast

theorem ask (f : Chain ε → α) : Keeps P (Session.ask f) :=
  fun _ hs => hs

theorem get : Keeps P (MonadState.get : Run ε (Session ε)) :=
  fun _ hs => hs

/-- Repeated pops keep what a pop keeps. -/
theorem popTimes (hpop : Keeps P pop) (n : Nat) : Keeps P (Session.popTimes n) := by
  induction n with
  | zero => exact pure ()
  | succ n ih =>
      apply bind hpop
      intro outcome
      cases outcome with
      | ok frame => exact ih
      | error e => exact pure ()

/-- A scope keeps what its body, opening a scope and popping keep. -/
theorem inScope {body : Run ε α} (hpush : Keeps P (pushBy Chain.push)) (hpop : Keeps P pop)
    (hbody : Keeps P body) : Keeps P (Session.inScope body) := by
  have hunwind : ∀ depth, Keeps P (unwind depth) := fun depth =>
    bind (ask Chain.depth) fun now => popTimes hpop (now - depth)
  refine bind (ask Chain.depth) fun depth => bind hpush fun _ => ?_
  exact bind hbody fun answer => bind (hunwind depth) fun _ => pure answer

/-- Several scopes around a body keep what a push, a pop and the body keep. -/
theorem inScopes {body : Run ε α} (hpush : Keeps P (pushBy Chain.push)) (hpop : Keeps P pop)
    (hbody : Keeps P body) (n : Nat) : Keeps P (Session.inScopes body n) := by
  induction n with
  | zero => exact hbody
  | succ n ih => exact inScope hpush hpop ih

/-- Several rounds of a body keep what the body keeps. -/
theorem rounds {body : Run ε α} (hbody : Keeps P body) (n : Nat) :
    Keeps P (LexicalScope.rounds body n) := by
  induction n with
  | zero => exact pure none
  | succ n ih => exact bind ih fun _ => map some hbody

/-- Of a second chain only the events reach the session, so the body may do as it likes. -/
theorem aside (hlog : ∀ s log, P s → P { s with log := log }) (hasher : Hasher) (start : Start ε)
    (body : Run ε α) : Keeps P (Session.aside hasher start body) := by
  intro s hs
  simp only [Session.aside]
  cases body ⟨hasher, start.chain hasher, #[], none, s.log⟩ with
  | ok _ other => exact hlog s other.log hs
  | error _ other => exact hlog s other.log hs

end Keeps

/-! ## Invariants -/

variable [Ord κ]

/-- A property of sessions that every single operation keeps. -/
structure Invariant (dialect : Dialect ε ι ρ) (P : Session ε → Prop) : Prop where
  keyed : ∀ request s, P s → P { s with chain := (dialect.fulfil request s.chain).2 }
  push : ∀ s, P s → P (s.afterPush (.empty s.chain.hasher))
  pushFrame : ∀ entries mark s, P s →
    P (s.afterPush (.ofList (s.hasher.withMark mark) entries))
  pushPopped : ∀ frame s, s.popped = some frame → P s → P (s.afterPush frame)
  pop : ∀ s, P s → P s.afterPop
  remember : ∀ s, P s → P { s.afterPop with popped := s.chain.pop.1.toOption.or s.popped }
  save : ∀ s, P s → P { s with saved := s.saved.push s.chain }
  restore : ∀ c s, c ∈ s.saved → P s → P { s with chain := c }
  log : ∀ s log, P s → P { s with log := log }

namespace Invariant

variable {dialect : Dialect ε ι ρ} {P : Session ε → Prop}

omit [Ord κ] in
/-- A push of an empty frame keeps an invariant. -/
theorem keepsPush (h : Invariant dialect P) : Keeps P (pushBy Chain.push) := by
  intro s hs
  rw [pushBy_push]
  exact h.push s hs

omit [Ord κ] in
/-- A pop keeps an invariant. -/
theorem keepsPop (h : Invariant dialect P) : Keeps P Session.pop := by
  intro s hs
  rw [pop_eq]
  exact h.pop s hs

mutual

/-- What the single operations keep, every command keeps. -/
theorem exec (h : Invariant dialect P) : ∀ command, Keeps P (Session.exec dialect command)
  | .keyed request => by
      intro s hs
      have hafter := h.keyed request s hs
      rw [exec_keyed]
      rcases hrequest : dialect.fulfil request s.chain with ⟨_ | _, c⟩ <;>
        simpa only [hrequest, lastOf_ok, lastOf_error] using hafter
  | .push => by
      intro s hs
      rw [exec_push]
      exact h.push s hs
  | .pushFrame entries mark => by
      intro s hs
      rw [exec_pushFrame]
      exact h.pushFrame entries mark s hs
  | .pop => by
      intro s hs
      rw [exec_pop]
      exact h.remember s hs
  | .pushPopped => by
      intro s hs
      rw [exec_pushPopped]
      cases hpopped : s.popped with
      | none => exact hs
      | some frame => exact h.pushPopped frame s hpopped hs
  | .scope body => by
      rw [Session.exec]
      exact Keeps.map _ (Keeps.inScope h.keepsPush h.keepsPop (execAll h body))
  | .nest n body => by
      rw [Session.exec]
      exact Keeps.map _ (Keeps.inScopes h.keepsPush h.keepsPop (execAll h body) n)
  | .rounds n body => by
      rw [Session.exec]
      apply Keeps.bind (Keeps.rounds (execAll h body) n)
      intro last
      cases last <;> exact Keeps.pure _
  | .save => by
      intro s hs
      rw [exec_save]
      exact h.save s hs
  | .restore copy => by
      intro s hs
      rw [exec_restore]
      cases hcopy : s.saved[copy]? with
      | none => exact hs
      | some c => exact h.restore c s (Array.mem_of_getElem? hcopy) hs
  | .equalsSaved copy => by
      intro s hs
      rw [exec_equalsSaved]
      cases s.saved[copy]? <;> exact hs
  | .stackEqualsSaved copy => by
      intro s hs
      rw [exec_stackEqualsSaved]
      cases s.saved[copy]? <;> exact hs
  | .equalsOther start mark body => by
      rw [Session.exec]
      exact Keeps.bind Keeps.get fun s =>
        Keeps.bind (Keeps.aside h.log _ start _) fun _ => Keeps.map _ (Keeps.ask _)
  | .depth | .hashers | .root | .top | .frame _ | .frames | .framesBelow _ | .positionOfSize _
  | .visible | .visibleFrames _ | .display _ => by
      rw [Session.exec]
      exact Keeps.map _ (Keeps.ask _)
  | .visibleHints => by
      rw [Session.exec]
      exact Keeps.ask _

/-- What the single operations keep, every list of commands keeps. -/
theorem execAll (h : Invariant dialect P) : ∀ commands, Keeps P (Session.execAll dialect commands)
  | [] => by
      rw [Session.execAll]
      exact Keeps.pure _
  | command :: rest => by
      rw [Session.execAll]
      exact Keeps.bind (exec h command) fun _ => Keeps.bind (Keeps.ask _) fun _ =>
        Keeps.bind (execAll h rest) fun _ => Keeps.pure _

end

end Invariant

end Session

/-! ## The hasher of the frames to come -/

variable {ε ι ρ κ : Type} [Entry ε κ] [BEq κ]

/-- No request changes the hasher that new frames get. -/
def Dialect.KeepsLabel (dialect : Dialect ε ι ρ) : Prop :=
  ∀ request c, (dialect.fulfil request c).2.hasher = c.hasher

/-- The chain and all its saved copies give new frames the same hasher. -/
def Session.SameLabel (label : Hasher) (s : Session ε) : Prop :=
  s.chain.hasher = label ∧ ∀ c ∈ s.saved, c.hasher = label

/-- A chain and its saved copies go on giving new frames the hasher that they give them now. -/
theorem Session.invariant_sameLabel {dialect : Dialect ε ι ρ} (h : dialect.KeepsLabel)
    (label : Hasher) : Invariant dialect (SameLabel label) where
  keyed request s hs := ⟨(h request s.chain).trans hs.1, hs.2⟩
  push _ hs := hs
  pushFrame _ _ _ hs := hs
  pushPopped _ _ _ hs := hs
  pop _ hs := hs
  remember _ hs := hs
  save s hs := by
    refine ⟨hs.1, fun c hc => ?_⟩
    rcases Array.mem_push.mp hc with hold | rfl
    · exact hs.2 c hold
    · exact hs.1
  restore c s hc hs := ⟨hs.2 c hc, hs.2⟩
  log _ _ hs := hs

namespace Chain

/-- Inserting by index keeps the hasher of the chain. -/
theorem hasher_insertAt (c : Chain ε) (index : Nat) (entry : ε) :
    (c.insertAt index entry).2.hasher = c.hasher := by
  unfold insertAt
  split <;> rfl

/-- Changing a frame below an index keeps the hasher of the chain. -/
theorem hasher_changeBelow (c : Chain ε) (x : Nat) (f : Frame ε → Option (ε × Frame ε)) :
    (c.changeBelow x f).2.hasher = c.hasher := by
  unfold changeBelow
  split <;> rfl

/-- Erasing from the current frame keeps the hasher of the chain. -/
theorem hasher_eraseLocal (c : Chain ε) (k : κ) : (c.eraseLocal k).2.hasher = c.hasher := by
  unfold eraseLocal
  split <;> rfl

end Chain

/-- Requests to a chain of bindings do not change the hasher that new frames get. -/
theorem BindingRequest.keepsLabel {ν : Type} [BEq ν] [Ord κ] [Display κ] [Display ν] :
    (dialect : Dialect (Binding κ ν) (BindingRequest κ ν) (BindingAnswer κ ν)).KeepsLabel := by
  intro request c
  cases request with
  | declareAt index key value => exact c.hasher_insertAt index _
  | overwrite key value => exact c.hasher_changeBelow _ _
  | overwriteBelow index key value => exact c.hasher_changeBelow _ _
  | assign key value => exact c.hasher_changeBelow _ _
  | delete key => exact c.hasher_changeBelow _ _
  | deleteLocal key => exact c.hasher_eraseLocal key
  | demand key => exact congrArg Chain.hasher (fulfil_demand key c)
  | _ => rfl

/-- Requests to a chain of names do not change the hasher that new frames get. -/
theorem NameRequest.keepsLabel [Display κ] :
    (dialect : Dialect (Member κ) (NameRequest κ) (NameAnswer κ)).KeepsLabel := by
  intro request c
  cases request with
  | addAt index key => exact c.hasher_insertAt index _
  | delete key => exact c.hasher_changeBelow _ _
  | deleteLocal key => exact c.hasher_eraseLocal key
  | _ => rfl

end LexicalScope
