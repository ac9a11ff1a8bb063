import LexicalScope.Proofs.Session.Translation
import LexicalScope.Proofs.Visible.Image

/-!
# Commands that only look at the chain

Some commands ask about the frames of a chain or about its visible entries, and change
nothing.  Two sessions with related chains answer them alike if the answers to single
questions are related whenever the chains are.

Main results:

- Definition {lit}`Correspondence.Sights`: what has to be known of single questions.
- Theorem {lit}`Correspondence.Sights.look`: then the commands simulate each other.
-/

namespace LexicalScope

variable {ε ι ρ κ ε' ι' ρ' κ' : Type} [Entry ε κ] [BEq κ] [Ord κ] [Entry ε' κ'] [BEq κ'] [Ord κ']

namespace Correspondence

open Chain (Related)

/--
Related chains give related answers to single questions.  Hashers and texts need to be asked
for only if the command that asks for them is permitted.
-/
structure Sights (dialect : Dialect ε ι ρ) (dialect' : Dialect ε' ι' ρ')
    (permitted : Command ε ι → Prop) (L : Hasher → Hasher → Prop) (F : Frame ε → Frame ε' → Prop)
    (sight : Answer ε ρ → Answer ε' ρ' → Prop) : Prop where
  hashers : permitted .hashers → ∀ c d, Related L F c d →
    sight (.hashers c.hashers) (.hashers d.hashers)
  frame : ∀ f g, F f g → sight (.frame f) (.frame g)
  frameAt : ∀ f g, Option.Rel F f g → sight (.frameAt f) (.frameAt g)
  frames : ∀ fs gs, List.Forall₂ F fs gs → sight (.frames fs) (.frames gs)
  size : ∀ f g, F f g → f.size = g.size
  index : ∀ index, sight (.index index) (.index index)
  groups : ∀ c d, Related L F c d → sight (.groups c.visibleGroups) (.groups d.visibleGroups)
  visibleFrames : ∀ c d, Related L F c d → ∀ n, c.visibleFrames n = d.visibleFrames n
  indexes : ∀ indexes, sight (.indexes indexes) (.indexes indexes)
  hints : ∀ before after, sight (.hints before after) (.hints before after)
  text : ∀ layout, permitted (.display layout) → ∀ c d, Related L F c d →
    sight (.text (dialect.text? layout c)) (.text (dialect'.text? layout d))

open Session (Simulates)

/-- Commands that look at related chains in the same way are answered alike. -/
theorem Sights.look {dialect : Dialect ε ι ρ} {dialect' : Dialect ε' ι' ρ'}
    {permitted : Command ε ι → Prop} {L : Hasher → Hasher → Prop} {F : Frame ε → Frame ε' → Prop}
    {sight : Answer ε ρ → Answer ε' ρ' → Prop}
    (h : Sights dialect dialect' permitted L F sight) {command : Command ε ι}
    {command' : Command ε' ι'} (hpermitted : permitted command)
    (hlook : Command.SameLook command command') :
    Simulates L F sight (Session.exec dialect command) (Session.exec dialect' command') := by
  cases hlook with
  | hashers =>
      rw [Session.exec, Session.exec]
      exact Simulates.map (A := fun a b => sight (.hashers a) (.hashers b))
        (Simulates.ask (h.hashers hpermitted)) fun _ _ hsight => hsight
  | root =>
      rw [Session.exec, Session.exec]
      exact Simulates.map (Simulates.ask fun c d hcd => hcd.stack.root) h.frame
  | top =>
      rw [Session.exec, Session.exec]
      exact Simulates.map (Simulates.ask fun c d hcd => hcd.stack.top) h.frame
  | frame index =>
      rw [Session.exec, Session.exec]
      exact Simulates.map (Simulates.ask fun c d hcd => hcd.stack.frame? index) h.frameAt
  | frames =>
      rw [Session.exec, Session.exec]
      exact Simulates.map (Simulates.ask fun c d hcd => hcd.stack.fromTop) h.frames
  | framesBelow index =>
      rw [Session.exec, Session.exec]
      exact Simulates.map (Simulates.ask fun c d hcd => hcd.stack.below index) h.frames
  | positionOfSize n =>
      rw [Session.exec, Session.exec]
      refine Simulates.map (Simulates.ask fun c d hcd => hcd.stack.position
        fun f g hfg => by rw [h.size f g hfg]) ?_
      rintro index _ rfl
      exact h.index index
  | visible =>
      rw [Session.exec, Session.exec]
      exact Simulates.map (A := fun a b => sight (.groups a) (.groups b))
        (Simulates.ask h.groups) fun _ _ hsight => hsight
  | visibleFrames n =>
      rw [Session.exec, Session.exec]
      apply Simulates.map (Simulates.ask fun c d hcd => h.visibleFrames c d hcd n)
      rintro indexes _ rfl
      exact h.indexes indexes
  | visibleHints =>
      rw [Session.exec, Session.exec]
      apply Simulates.ask
      intro c d _
      rw [c.visibleHints_eq, d.visibleHints_eq]
      exact h.hints _ _
  | display layout =>
      rw [Session.exec, Session.exec]
      exact Simulates.map (A := fun a b => sight (.text a) (.text b))
        (Simulates.ask (h.text layout hpermitted)) fun _ _ hsight => hsight

end Correspondence
end LexicalScope
