import LexicalScope.Proofs.Session.Translation

/-!
# Programs that run on two sessions of one kind

A condition on single commands holds everywhere in a program if it holds for every command
of it, however deep the command is nested.  If the condition makes single commands
correspond to themselves, it makes the whole program correspond to itself, so that it can be
run on two sessions side by side.

Main results:

- Definition {lit}`Command.Everywhere`: a condition on a command and all commands in it.
- Theorem {lit}`Correspondence.matchesAll_self`: a program corresponds to itself if its commands
  do.
-/

namespace LexicalScope

variable {ε ι ρ κ : Type}

/-! ## Conditions on all commands of a program -/

namespace Command

mutual

/-- The condition holds for the command and for every command in it. -/
def Everywhere (p : Command ε ι → Prop) : Command ε ι → Prop
  | .scope body => p (.scope body) ∧ AllEverywhere p body
  | .nest n body => p (.nest n body) ∧ AllEverywhere p body
  | .rounds n body => p (.rounds n body) ∧ AllEverywhere p body
  | .equalsOther start mark body => p (.equalsOther start mark body) ∧ AllEverywhere p body
  | command => p command

/-- The condition holds for every command of a list and for every command in them. -/
def AllEverywhere (p : Command ε ι → Prop) : List (Command ε ι) → Prop
  | [] => True
  | command :: rest => Everywhere p command ∧ AllEverywhere p rest

end

end Command

/-! ## Programs that correspond to themselves -/

namespace Correspondence

variable [Entry ε κ] [BEq κ] {C : Correspondence ε ι ρ ε ι ρ}

/-- Commands that satisfy a condition correspond to themselves, as far as they are single ones. -/
structure Accepts (C : Correspondence ε ι ρ ε ι ρ) (p : Command ε ι → Prop) : Prop where
  mark : ∀ mark, C.mark mark mark
  comparable : C.comparable
  request : ∀ {r}, p (.keyed r) → C.request r r ∧ ¬C.dropped r
  entries : ∀ {es mark}, p (.pushFrame es mark) → C.entries es es
  start : ∀ {start mark body}, p (.equalsOther start mark body) → C.Starts start start
  look : ∀ {command}, p command → Command.SameLook command command → C.look command command

variable {p : Command ε ι → Prop}

/-- A command that is accepted everywhere is not dropped. -/
theorem Accepts.not_dropped (h : C.Accepts p) {command : Command ε ι}
    (hcommand : command.Everywhere p) : ¬C.Dropped command := by
  cases command with
  | keyed r => exact (h.request hcommand).2
  | _ => exact id

mutual

/-- A command that is accepted everywhere corresponds to itself. -/
theorem matches_self (h : C.Accepts p) :
    ∀ command : Command ε ι, command.Everywhere p → C.Matches command command
  | .keyed _, hp => .keyed (h.request hp).1
  | .depth, _ => .depth
  | .push, _ => .push
  | .pushFrame _ mark, hp => .pushFrame (h.entries hp) (h.mark mark)
  | .pop, _ => .pop
  | .pushPopped, _ => .pushPopped
  | .scope body, ⟨_, hbody⟩ => .scope (matchesAll_self h body hbody)
  | .nest n body, ⟨_, hbody⟩ => .nest n (matchesAll_self h body hbody)
  | .rounds n body, ⟨_, hbody⟩ => .rounds n (matchesAll_self h body hbody)
  | .hashers, hp => .look (h.look hp .hashers)
  | .root, hp => .look (h.look hp .root)
  | .top, hp => .look (h.look hp .top)
  | .frame index, hp => .look (h.look hp (.frame index))
  | .frames, hp => .look (h.look hp .frames)
  | .framesBelow index, hp => .look (h.look hp (.framesBelow index))
  | .positionOfSize n, hp => .look (h.look hp (.positionOfSize n))
  | .visible, hp => .look (h.look hp .visible)
  | .visibleFrames n, hp => .look (h.look hp (.visibleFrames n))
  | .visibleHints, hp => .look (h.look hp .visibleHints)
  | .display layout, hp => .look (h.look hp (.display layout))
  | .save, _ => .save
  | .restore copy, _ => .restore copy
  | .equalsSaved copy, _ => .equalsSaved copy h.comparable
  | .stackEqualsSaved copy, _ => .stackEqualsSaved copy h.comparable
  | .equalsOther _ mark body, ⟨hp, hbody⟩ =>
    .equalsOther h.comparable (h.start hp) (h.mark mark) (matchesAll_self h body hbody)

/-- A program corresponds to itself if everywhere in it the commands do. -/
theorem matchesAll_self (h : C.Accepts p) :
    ∀ commands : List (Command ε ι), Command.AllEverywhere p commands →
      C.MatchesAll commands commands
  | [], _ => .nil
  | command :: rest, ⟨hcommand, hrest⟩ =>
    .cons (h.not_dropped hcommand) (matches_self h command hcommand) (matchesAll_self h rest hrest)

end

end Correspondence
end LexicalScope
