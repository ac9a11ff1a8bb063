import LexicalScope.Proofs.Session.Moments
import LexicalScope.Proofs.Session.Refusal

/-!
# Steps that are given up

In a chain of bindings only a demand can be a fault, namely a demand for a key that no frame
holds at that moment.  The fault ends the whole step, whatever scopes and rounds it happens in.
The scopes are not ended, so the frames that they have opened stay, and the session is left as it
is at the moment of the demand.

A demand on a second chain is made in a session of its own, which is lost.  What stays is the
session that was left for the comparison, with the events so far.

Main results:

- Theorem {lit}`BindingRequest.fulfil_eq_error_iff`: which requests are faults.
- Theorem {lit}`Session.abandoned_iff`: a step is given up if and only if it comes to the demand
  for a key that is not bound, and then the following steps go on from the session at that moment.
-/

open StateTransition

namespace LexicalScope

/-! ## The outermost comparison -/

namespace Moment

variable {ε ι κ : Type} [Entry ε κ] [BEq κ]

/-- Either the chain itself is at work, or there is an outermost comparison to come back to. -/
theorem exists_outermost (tasks : List (Task ε ι)) :
    mains tasks = [] ∨
      ∃ inner main outer, tasks = inner ++ .rejoin main :: outer ∧ mains outer = [] := by
  induction tasks with
  | nil => exact Or.inl rfl
  | cons task rest ih =>
      rcases ih with hrest | ⟨inner, main, outer, rfl, houter⟩
      · cases task with
        | run command => exact Or.inl hrest
        | close depth => exact Or.inl hrest
        | rejoin main => exact Or.inr ⟨[], main, rest, rfl, hrest⟩
      · exact Or.inr ⟨task :: inner, main, outer, rfl, houter⟩

/--
What stays of an abandoned moment is the session that waits longest, with the events up to then.
-/
theorem abandoned_of_outermost (s main : Session ε) (inner : List (Task ε ι))
    {outer : List (Task ε ι)} (h : mains outer = []) :
    abandoned ⟨s, inner ++ .rejoin main :: outer⟩ = { main with log := s.log } := by
  have hlast : mains (inner ++ .rejoin main :: outer) = mains inner ++ [main] := by
    rw [mains_append, List.append_cancel_left_eq, ← List.singleton_append, mains_append, h]
    rfl
  rw [abandoned, hlast, List.getLast?_concat]

end Moment

/-! ## Faults of chains of bindings -/

variable {κ ν : Type} [BEq κ] [BEq ν] [Ord κ]

namespace BindingRequest

/-- A request is a fault if and only if it demands a key that no frame holds. -/
theorem fulfil_eq_error_iff (request : BindingRequest κ ν) (c : Bindings κ ν) (fault : Fault) :
    (request.fulfil c).1 = .error fault ↔
      ∃ key, request = .demand key ∧ c.FreeBelow c.depth key := by
  have hget : ∀ key, (∃ e, c.get key = .error e) ↔ c.FreeBelow c.depth key := by
    intro key
    have herror := fun e => (map_eq_error_iff (c.lookup key) Binding.value e).trans
      (c.lookupBelow_eq_error_iff c.depth key e)
    constructor
    · rintro ⟨e, he⟩
      exact ((herror e).mp he).1
    · intro hfree
      exact ⟨.keyNotFound, (herror .keyNotFound).mpr ⟨hfree, rfl⟩⟩
  cases request with
  | demand key =>
      simp only [demand.injEq, exists_eq_left', ← hget key, fulfil]
      cases c.get key <;> simp
  | _ => simp [fulfil]

/-- A request to a chain of bindings that is given up leaves the chain as it was. -/
theorem faultsInPlace [Display κ] [Display ν] :
    (dialect : Dialect (Binding κ ν) _ _).FaultsInPlace := by
  intro request c fault h
  rcases (fulfil_eq_error_iff request c fault).mp h with ⟨key, rfl, -⟩
  exact fulfil_demand key c

end BindingRequest

omit [BEq ν] [Ord κ] in
/-- No request to a chain of names is a fault. -/
theorem NameRequest.faultsInPlace [Display κ] :
    (dialect : Dialect (Member κ) _ _).FaultsInPlace := by
  intro request c fault h
  cases request <;> cases h

namespace Session

variable [Display κ] [Display ν]

/--
From the session before it, the command comes to the demand for a key that is not bound, and what
stays if everything else is given up is the session given last.
-/
inductive Abandoned (command : Command (Binding κ ν) (BindingRequest κ ν))
    (before : Session (Binding κ ν)) : Session (Binding κ ν) → Prop where
  /-- The demand is made on the chain itself, and the session stays as it is. -/
  | onChain {now : Session (Binding κ ν)} {key : κ}
      {pending : List (Task (Binding κ ν) (BindingRequest κ ν))}
      (hreaches : Reaches (Moment.next? BindingRequest.dialect) ⟨before, [.run command]⟩
        ⟨now, .run (.keyed (.demand key)) :: pending⟩)
      (hpending : Moment.mains pending = [])
      (hfree : now.chain.FreeBelow now.chain.depth key) : Abandoned command before now
  /--
  The demand is made on a second chain.  The command has left the chain itself for a comparison,
  and the session at the moment of the comparison stays, with the events up to the demand.
  -/
  | onOther {main now : Session (Binding κ ν)} {start : Start (Binding κ ν)} {mark : Option UInt64}
      {body : List (Command (Binding κ ν) (BindingRequest κ ν))} {key : κ}
      {inner outer : List (Task (Binding κ ν) (BindingRequest κ ν))}
      (hcompared : Reaches (Moment.next? BindingRequest.dialect) ⟨before, [.run command]⟩
        ⟨main, .run (.equalsOther start mark body) :: outer⟩)
      (houter : Moment.mains outer = [])
      (hreaches : Reaches (Moment.next? BindingRequest.dialect)
        ⟨main, .run (.equalsOther start mark body) :: outer⟩
        ⟨now, .run (.keyed (.demand key)) :: inner ++ .rejoin main :: outer⟩)
      (hfree : now.chain.FreeBelow now.chain.depth key) :
      Abandoned command before { main with log := now.log }

/-- A command is ended by a fault if and only if it is given up at the demand for an unbound key. -/
theorem exec_eq_unbound_iff (command : Command (Binding κ ν) (BindingRequest κ ν))
    (s after : Session (Binding κ ν)) :
    exec BindingRequest.dialect command s = .error .unbound after ↔ Abandoned command s after := by
  rw [exec_eq_error_iff BindingRequest.faultsInPlace]
  constructor
  · rintro ⟨⟨now, tasks⟩, hreaches, ⟨request, pending, rfl, hfault⟩, rfl⟩
    rcases (request.fulfil_eq_error_iff now.chain .unbound).mp hfault with ⟨key, rfl, hfree⟩
    rcases Moment.exists_outermost pending with hpending | ⟨inner, main, outer, rfl, houter⟩
    · have hstays : Moment.mains (.run (.keyed (.demand key)) :: pending) = [] := hpending
      rw [Moment.abandoned_of_mains_eq_nil hstays]
      exact .onChain hreaches hpending hfree
    · have hinner : .run (.keyed (.demand key)) :: (inner ++ .rejoin main :: outer) =
          (.run (.keyed (.demand key)) :: inner) ++ .rejoin main :: outer := rfl
      rcases Moment.compared_of_reaches hreaches hinner with
        ⟨start, mark, body, hcompared, hafter⟩
      have hstays := Moment.abandoned_of_outermost now main
        (.run (.keyed (.demand key)) :: inner) houter
      change Abandoned command s (Moment.abandoned ⟨now, _ :: inner ++ _⟩)
      rw [hstays]
      exact .onOther hcompared houter hafter hfree
  · intro h
    cases h with
    | @onChain now key pending hreaches hpending hfree =>
        have hfault := (BindingRequest.fulfil_eq_error_iff _ _ .unbound).mpr ⟨key, rfl, hfree⟩
        have hstays : Moment.mains (.run (.keyed (.demand key)) :: pending) = [] := hpending
        refine ⟨⟨after, _⟩, hreaches, ⟨_, _, rfl, hfault⟩, ?_⟩
        rw [Moment.abandoned_of_mains_eq_nil hstays]
    | @onOther main now start mark body key inner outer hcompared houter hreaches hfree =>
        have hfault := (BindingRequest.fulfil_eq_error_iff _ _ .unbound).mpr ⟨key, rfl, hfree⟩
        refine ⟨_, hcompared.trans hreaches, ⟨_, _, rfl, hfault⟩, ?_⟩
        exact (Moment.abandoned_of_outermost now main
          (.run (.keyed (.demand key)) :: inner) houter).symm

/-! ## Steps of a run -/

omit [BEq ν] [Display κ] [Display ν] in
/-- The first report of a run is that of the first step, and the others go on from there. -/
theorem run_cons_eq_iff {ε ι ρ : Type} [Entry ε κ] (dialect : Dialect ε ι ρ) (command : Command ε ι)
    (rest : List (Command ε ι)) (s : Session ε) (report : Report ε ρ) :
    run dialect (command :: rest) s =
        (report :: (run dialect rest report.after).1, (run dialect rest report.after).2) ↔
      step dialect command s = report := by
  constructor
  · intro h
    exact (List.cons.inj (Prod.mk.inj h).1).1
  · rintro rfl
    rfl

/--
A step on a chain of bindings is given up if and only if its moments come to the demand for a key
that no frame holds at that moment, and for no other reason.  On the chain itself the session is
left as it is at that moment, with all frames that the enclosing scopes have opened; on a second
chain what stays is the session at the moment of the comparison.  All following steps run from the
session that is left.  A step that is not given up comes to the end of its tasks.
-/
theorem abandoned_iff (command : Command (Binding κ ν) (BindingRequest κ ν))
    (rest : List (Command (Binding κ ν) (BindingRequest κ ν))) (s after : Session (Binding κ ν)) :
    (run BindingRequest.dialect (command :: rest) s =
        (⟨.error .unbound, after⟩ :: (run BindingRequest.dialect rest after).1,
          (run BindingRequest.dialect rest after).2) ↔
      Abandoned command { s with log := #[] } after) ∧
    ((∃ answer, run BindingRequest.dialect (command :: rest) s =
        (⟨.ok answer, after⟩ :: (run BindingRequest.dialect rest after).1,
          (run BindingRequest.dialect rest after).2)) ↔
      Reaches (Moment.next? BindingRequest.dialect) ⟨{ s with log := #[] }, [.run command]⟩
        ⟨after, []⟩) := by
  have hexec := exec_eq_unbound_iff command { s with log := #[] } after
  have hdone := exec_eq_ok_iff BindingRequest.faultsInPlace command { s with log := #[] } after
  rw [← hexec, ← hdone,
    run_cons_eq_iff BindingRequest.dialect command rest s ⟨.error .unbound, after⟩]
  simp only [run_cons_eq_iff BindingRequest.dialect command rest s ⟨.ok _, after⟩]
  unfold step
  cases exec BindingRequest.dialect command { s with log := #[] } with
  | ok answer last => simp
  | error fault last => simp

/-- Two scopes and the frames of two rounds are open when the demand is made, and stay open. -/
example :
    (run BindingRequest.dialect [.nest 2 [.rounds 2 [.push], .keyed (.demand 7)], .depth]
      (start .standard .empty : Session (Binding Int64 Value))).2.chain.depth = 5 := by
  decide +kernel

end Session
end LexicalScope
