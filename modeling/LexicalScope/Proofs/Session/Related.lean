import LexicalScope.Proofs.Chain.Related
import LexicalScope.Proofs.Session.Effect

/-!
# Related sessions

Two sessions are related if their chains are, and their saved copies and the frames
popped last are, and if they have recorded the same events.  A computation simulates
another one if both take related sessions to related sessions with related answers, or
are ended by the same fault.  Scopes, rounds and second chains only run what they are
given, so they simulate each other if their bodies do.

Main results:

- Theorem {lit}`Session.Simulates.bind`: simulations compose.
- Theorem {lit}`Session.Simulates.inScopes`: scopes around bodies that simulate each other
  do so as well, whatever depths the bodies leave.
- Theorem {lit}`Session.Simulates.aside`: so do computations on second chains.
-/

namespace LexicalScope
namespace Session

variable {ε κ ε' κ' : Type} [Entry ε κ] [BEq κ] [Entry ε' κ'] [BEq κ'] {α β α' β' : Type}

/-- The sessions have related chains, copies and popped frames, and the same events. -/
structure Related (L : Hasher → Hasher → Prop) (F : Frame ε → Frame ε' → Prop) (s : Session ε)
    (t : Session ε') : Prop where
  hasher : L s.hasher t.hasher
  chain : s.chain.Related L F t.chain
  saved : List.Forall₂ (Chain.Related L F) s.saved.toList t.saved.toList
  popped : Option.Rel F s.popped t.popped
  log : s.log = t.log

variable {L : Hasher → Hasher → Prop} {F : Frame ε → Frame ε' → Prop}

/-! ## Single operations -/

namespace Related

variable {s : Session ε} {t : Session ε'}

/-- Related sessions may go on with related chains. -/
theorem withChain (h : Related L F s t) {c : Chain ε} {d : Chain ε'}
    (hchain : c.Related L F d) : Related L F { s with chain := c } { t with chain := d } :=
  ⟨h.hasher, hchain, h.saved, h.popped, h.log⟩

theorem withLog (h : Related L F s t) {log log' : Array Event} (hlog : log = log') :
    Related L F { s with log := log } { t with log := log' } :=
  ⟨h.hasher, h.chain, h.saved, h.popped, hlog⟩

/-- Pushing related frames keeps sessions related. -/
theorem afterPush (h : Related L F s t) {f : Frame ε} {g : Frame ε'} (hfg : F f g) :
    Related L F (s.afterPush f) (t.afterPush g) := by
  refine ⟨h.hasher, h.chain.pushFrame hfg, h.saved, h.popped, ?_⟩
  change s.log.push _ = t.log.push _
  rw [h.log, h.chain.depth]

/-- Popping keeps sessions related. -/
theorem afterPop (h : Related L F s t) : Related L F s.afterPop t.afterPop := by
  rcases h.chain.pop with ⟨houtcome, hchain⟩
  have hevent : popEvent s.chain.pop.1 s.chain.pop.2.depth =
      popEvent t.chain.pop.1 t.chain.pop.2.depth := by
    rw [hchain.depth]
    rcases outcomeRel_cases houtcome with ⟨f, g, hs, ht, -⟩ | ⟨e, hs, ht⟩ <;> rw [hs, ht] <;> rfl
  refine ⟨h.hasher, hchain, h.saved, h.popped, ?_⟩
  change s.log.push _ = t.log.push _
  rw [h.log, hevent]

/-- Saved copies with the same number are related. -/
theorem copy (h : Related L F s t) (i : Nat) :
    Option.Rel (Chain.Related L F) s.saved[i]? t.saved[i]? := by
  rw [← Array.getElem?_toList, ← Array.getElem?_toList]
  exact rel_getElem? h.saved i

end Related

/-! ## Simulations -/

/-- Both computations have ended in related sessions, with related answers or by one fault. -/
inductive Alike (L : Hasher → Hasher → Prop) (F : Frame ε → Frame ε' → Prop)
    (A : α → β → Prop) :
    EStateM.Result Fault (Session ε) α → EStateM.Result Fault (Session ε') β → Prop where
  | ok {a : α} {b : β} {s : Session ε} {t : Session ε'} (hanswer : A a b)
      (hlast : Related L F s t) : Alike L F A (.ok a s) (.ok b t)
  | error (fault : Fault) {s : Session ε} {t : Session ε'} (hlast : Related L F s t) :
      Alike L F A (.error fault s) (.error fault t)

/--
Runs that are alike answer related things, or are given up by the same fault; either way the
sessions are related.
-/
theorem alike_cases {A : α → β → Prop} {r : EStateM.Result Fault (Session ε) α}
    {r' : EStateM.Result Fault (Session ε') β} (h : Alike L F A r r') :
    (∃ a b s t, r = .ok a s ∧ r' = .ok b t ∧ A a b ∧ Related L F s t) ∨
      ∃ fault s t, r = .error fault s ∧ r' = .error fault t ∧ Related L F s t := by
  cases h with
  | ok hanswer hlast => exact Or.inl ⟨_, _, _, _, rfl, rfl, hanswer, hlast⟩
  | error fault hlast => exact Or.inr ⟨_, _, _, rfl, rfl, hlast⟩

/-- From related sessions, both computations end alike. -/
def Simulates (L : Hasher → Hasher → Prop) (F : Frame ε → Frame ε' → Prop) (A : α → β → Prop)
    (m : Run ε α) (m' : Run ε' β) : Prop :=
  ∀ s t, Related L F s t → Alike L F A (m s) (m' t)

namespace Simulates

variable {A : α → β → Prop} {A' : α' → β' → Prop}

theorem pure {a : α} {b : β} (h : A a b) :
    Simulates L F A (Pure.pure a : Run ε α) (Pure.pure b : Run ε' β) :=
  fun _ _ hst => .ok h hst

/-- Computations that simulate each other do so one after the other. -/
theorem bind {m : Run ε α} {m' : Run ε' β} {f : α → Run ε α'} {f' : β → Run ε' β'}
    (hm : Simulates L F A m m') (hf : ∀ a b, A a b → Simulates L F A' (f a) (f' b)) :
    Simulates L F A' (m >>= f) (m' >>= f') := by
  intro s t hst
  simp only [Bind.bind, EStateM.bind]
  rcases alike_cases (hm s t hst) with ⟨a, b, s₁, t₁, hs, ht, hab, h₁⟩ | ⟨fault, s₁, t₁, hs, ht, h₁⟩
  · rw [hs, ht]
    exact hf a b hab s₁ t₁ h₁
  · rw [hs, ht]
    exact .error fault h₁

/-- Mapping related answers to related ones keeps the simulation. -/
theorem map {m : Run ε α} {m' : Run ε' β} {f : α → α'} {f' : β → β'}
    (hm : Simulates L F A m m') (hf : ∀ a b, A a b → A' (f a) (f' b)) :
    Simulates L F A' (f <$> m) (f' <$> m') := by
  rw [← bind_pure_comp, ← bind_pure_comp]
  exact bind hm fun a b hab => pure (hf a b hab)

theorem ask {f : Chain ε → α} {f' : Chain ε' → β}
    (hf : ∀ c d, c.Related L F d → A (f c) (f' d)) :
    Simulates L F A (Session.ask f) (Session.ask f') :=
  fun s t hst => .ok (hf s.chain t.chain hst.chain) hst

theorem get :
    Simulates L F (Related L F) (MonadState.get : Run ε (Session ε))
      (MonadState.get : Run ε' (Session ε')) :=
  fun _ _ hst => .ok hst hst

/-- Pops of related sessions give related frames away, or are both refused. -/
theorem pop : Simulates L F (OutcomeRel F) (Session.pop : Run ε _) (Session.pop : Run ε' _) := by
  intro s t hst
  rw [pop_eq, pop_eq]
  exact .ok hst.chain.pop.1 hst.afterPop

/-! ## Scopes, rounds and second chains -/

/-- Repeated pops simulate each other, since they stop at the same depth. -/
theorem popTimes (n : Nat) :
    Simulates L F (fun _ _ => True) (Session.popTimes n : Run ε _)
      (Session.popTimes n : Run ε' _) := by
  induction n with
  | zero => exact pure trivial
  | succ n ih =>
      apply bind pop
      intro a b hab
      cases hab with
      | ok _ => exact ih
      | error _ => exact pure trivial

/-- Going back to a depth is done alike in both sessions. -/
theorem unwind (depth : Nat) :
    Simulates L F (fun _ _ => True) (Session.unwind depth : Run ε _)
      (Session.unwind depth : Run ε' _) := by
  have hdepth : Simulates L F Eq (Session.ask Chain.depth : Run ε _)
      (Session.ask Chain.depth : Run ε' _) := ask fun _ _ h => h.depth
  apply bind hdepth
  intro now now' hnow
  subst hnow
  exact popTimes (now - depth)

section Scopes

variable (hempty : ∀ h h', L h h' → F (.empty h) (.empty h'))
include hempty

/-- Pushes of empty frames simulate each other. -/
theorem push :
    Simulates L F Eq (pushBy Chain.push : Run ε _) (pushBy Chain.push : Run ε' _) := by
  intro s t hst
  rw [pushBy_push, pushBy_push]
  exact .ok rfl (hst.afterPush (hempty _ _ hst.chain.label))

/-- Bodies that simulate each other do so in scopes of their own. -/
theorem inScope {body : Run ε α} {body' : Run ε' β} (hbody : Simulates L F A body body') :
    Simulates L F A (Session.inScope body) (Session.inScope body') := by
  have hdepth : Simulates L F Eq (Session.ask Chain.depth : Run ε _)
      (Session.ask Chain.depth : Run ε' _) := ask fun _ _ h => h.depth
  refine bind hdepth fun depth depth' hdepth => bind (push hempty) fun _ _ _ => ?_
  subst hdepth
  exact bind hbody fun a b hab => bind (unwind depth) fun _ _ _ => pure hab

/-- Bodies that simulate each other do so in several scopes. -/
theorem inScopes {body : Run ε α} {body' : Run ε' β} (hbody : Simulates L F A body body')
    (n : Nat) : Simulates L F A (Session.inScopes body n) (Session.inScopes body' n) := by
  induction n with
  | zero => exact hbody
  | succ n ih => exact inScope hempty ih

end Scopes

/-- Bodies that simulate each other do so in several rounds. -/
theorem rounds {body : Run ε α} {body' : Run ε' β} (hbody : Simulates L F A body body')
    (n : Nat) :
    Simulates L F (Option.Rel A) (LexicalScope.rounds body n) (LexicalScope.rounds body' n) := by
  induction n with
  | zero => exact pure .none
  | succ n ih => exact bind ih fun _ _ _ => map hbody fun _ _ hab => .some hab

/-- Bodies that simulate each other leave related chains when they are run on second chains. -/
theorem aside {body : Run ε α} {body' : Run ε' β} (hbody : Simulates L F A body body')
    {h h' : Hasher} (hh : L h h') {start : Start ε} {start' : Start ε'}
    (hstart : (start.chain h).Related L F (start'.chain h')) :
    Simulates L F (Chain.Related L F) (Session.aside h start body)
      (Session.aside h' start' body') := by
  intro s t hst
  have hother := hbody ⟨h, start.chain h, #[], none, s.log⟩ ⟨h', start'.chain h', #[], none, t.log⟩
    ⟨hh, hstart, .nil, .none, hst.log⟩
  simp only [Session.aside]
  rcases alike_cases hother with ⟨a, b, s₁, t₁, hs, ht, -, h₁⟩ | ⟨fault, s₁, t₁, hs, ht, h₁⟩
  · rw [hs, ht]
    exact .ok h₁.chain (hst.withLog h₁.log)
  · rw [hs, ht]
    exact .error fault (hst.withLog h₁.log)

end Simulates

end Session
end LexicalScope
