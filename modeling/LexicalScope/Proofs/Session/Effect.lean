import LexicalScope.Session.Run

/-!
# The effect of single operations

What the operations that a session is built from answer and leave behind, as
equations between sessions.  The proofs about sessions use these equations and do not
open the computations any more.

Main results:

- Theorems {lit}`Session.pushBy_push`, {lit}`Session.pushBy_pushFrame` and
  {lit}`Session.pop_eq`: a push is recorded with the depth after it, and so is a pop
  unless it is refused.
- Theorem {lit}`Session.exec_keyed`: a request about keys reaches nothing but the chain.
-/

namespace LexicalScope
namespace Session

variable {ε ι ρ κ α : Type} [Entry ε κ] [BEq κ]

/-! ## Pushing and popping -/

/-- The event that a pop is recorded as, given the depth after it. -/
def popEvent (outcome : Except Error (Frame ε)) (depth : Nat) : Event :=
  match outcome with
  | .ok _ => .popped depth
  | .error _ => .refused

/-- The session after a frame was pushed. -/
def afterPush (s : Session ε) (frame : Frame ε) : Session ε :=
  { s with
    chain := s.chain.pushFrame frame
    log := s.log.push (.pushed (s.chain.depth + 1)) }

/-- The session after an attempt to pop the current frame. -/
def afterPop (s : Session ε) : Session ε :=
  { s with
    chain := s.chain.pop.2
    log := s.log.push (popEvent s.chain.pop.1 s.chain.pop.2.depth) }

/-- A push of a frame that is made from the chain has just this effect on the session. -/
theorem pushBy_pushFrame (s : Session ε) (frame : Chain ε → Frame ε) :
    pushBy (fun c => c.pushFrame (frame c)) s = .ok () (s.afterPush (frame s.chain)) := by
  have hdepth := Chain.depth_pushFrame s.chain (frame s.chain)
  simp only [afterPush, ← hdepth]
  rfl

/-- A push of an empty frame gives it the hasher of the chain. -/
theorem pushBy_push (s : Session ε) :
    pushBy Chain.push s = .ok () (s.afterPush (.empty s.chain.hasher)) :=
  pushBy_pushFrame s fun c => .empty c.hasher

/-- A pop answers what the chain answers, and records whether it was refused. -/
theorem pop_eq (s : Session ε) : pop s = .ok s.chain.pop.1 s.afterPop := by
  rcases s with ⟨hasher, chain, saved, popped, log⟩
  cases h : chain.pop with
  | mk outcome rest =>
      cases outcome <;>
        simp [pop, afterPop, popEvent, bind, EStateM.bind, change, h, record, ask, pure,
          EStateM.pure]

/-- What is done next may depend on the session as it is. -/
theorem bind_get (f : Session ε → Run ε α) (s : Session ε) : (get >>= f) s = f s s :=
  rfl

/-! ## Commands -/

variable [Ord κ] (dialect : Dialect ε ι ρ) (s : Session ε)

omit [Ord κ] in
/-- A request about keys changes the chain, also if it is given up. -/
theorem fulfil_eq (request : ι) :
    fulfil dialect request s =
      match dialect.fulfil request s.chain with
      | (.ok answer, c) => .ok answer { s with chain := c }
      | (.error fault, c) => .error fault { s with chain := c } := by
  rcases s with ⟨hasher, chain, saved, popped, log⟩
  cases h : dialect.fulfil request chain with
  | mk outcome after =>
      simp only [fulfil, change, h, bind, EStateM.bind]
      cases outcome <;> rfl

/-- A request about keys reaches nothing but the chain. -/
theorem exec_keyed (request : ι) :
    exec dialect (.keyed request) s =
      match dialect.fulfil request s.chain with
      | (.ok answer, c) => .ok (.keyed answer) { s with chain := c }
      | (.error fault, c) => .error fault { s with chain := c } := by
  rw [exec]
  simp only [Functor.map, EStateM.map, fulfil_eq]
  rcases dialect.fulfil request s.chain with ⟨_ | _, _⟩ <;> rfl

/-- The command to push pushes an empty frame. -/
theorem exec_push :
    exec dialect .push s = .ok .done (s.afterPush (.empty s.chain.hasher)) := by
  rw [exec]
  simp only [bind, EStateM.bind, pushBy_push]
  rfl

/-- The command to push a frame makes it of the entries, with the mark asked for. -/
theorem exec_pushFrame (entries : List ε) (mark : Option UInt64) :
    exec dialect (.pushFrame entries mark) s =
      .ok .done (s.afterPush (.ofList (s.hasher.withMark mark) entries)) := by
  rw [exec]
  have hpush := pushBy_pushFrame s fun _ => .ofList (s.hasher.withMark mark) entries
  rw [bind_get]
  simp only [bind, EStateM.bind, hpush]
  rfl

/-- A popped frame is remembered; a refusal changes no more than the events. -/
theorem exec_pop :
    exec dialect .pop s =
      .ok (.popped s.chain.pop.1)
        { s.afterPop with popped := s.chain.pop.1.toOption.or s.popped } := by
  rw [exec]
  simp only [bind, EStateM.bind, pop_eq]
  cases s.chain.pop.1 <;> rfl

/-- The command to push the popped frame again pushes it if there is one. -/
theorem exec_pushPopped :
    exec dialect .pushPopped s =
      match s.popped with
      | some frame => .ok (.flag true) (s.afterPush frame)
      | none => .ok (.flag false) s := by
  rw [exec]
  rw [bind_get]
  cases s.popped with
  | none => rfl
  | some frame =>
      have hpush := pushBy_pushFrame s fun _ => frame
      change EStateM.bind (pushBy fun c => c.pushFrame frame) _ s = _
      rw [EStateM.bind, hpush]
      rfl

/-- The command to save adds a copy of the chain, and answers its number. -/
theorem exec_save :
    exec dialect .save s = .ok (.number s.saved.size) { s with saved := s.saved.push s.chain } := by
  rw [exec]
  rfl

/-- The command to restore puts a saved copy in the place of the chain if there is one. -/
theorem exec_restore (copy : Nat) :
    exec dialect (.restore copy) s =
      match s.saved[copy]? with
      | some c => .ok .done { s with chain := c }
      | none => .ok .noSuchCopy s := by
  rw [exec]
  rw [bind_get]
  cases s.saved[copy]? <;> rfl

/-- The command to compare with a saved copy compares the chains if there is one. -/
theorem exec_equalsSaved (copy : Nat) :
    exec dialect (.equalsSaved copy) s =
      match s.saved[copy]? with
      | some other => .ok (.flag (s.chain == other)) s
      | none => .ok .noSuchCopy s := by
  rw [exec]
  rw [bind_get]
  cases s.saved[copy]? <;> rfl

/-- The command to compare the stacks does so with that of a saved copy if there is one. -/
theorem exec_stackEqualsSaved (copy : Nat) :
    exec dialect (.stackEqualsSaved copy) s =
      match s.saved[copy]? with
      | some other => .ok (.flag (s.chain.stack == other.stack)) s
      | none => .ok .noSuchCopy s := by
  rw [exec]
  rw [bind_get]
  cases s.saved[copy]? <;> rfl

end Session
end LexicalScope
