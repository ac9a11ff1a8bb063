import LexicalScope.Proofs.Session.Simulation

/-!
# Translation of programs

A program for one kind of chain becomes a program for another kind if its entries and
its requests about keys are translated.  A request without a translation is left out;
the structure of the program stays.

Main results:

- Theorem {lit}`Correspondence.matchesAll_translate`: a program corresponds to its
  translation if its requests do.
-/

namespace LexicalScope

variable {ε ι ρ κ ε' ι' ρ' κ' : Type}

/-! ## Translations -/

/-- The start with its entries translated. -/
def Start.translate (entries : List ε → List ε') : Start ε → Start ε'
  | .unchosen => .unchosen
  | .empty => .empty
  | .seeded es => .seeded (entries es)

namespace Command

mutual

/-- The command with its entries and requests translated; a left out request gives none. -/
def translate (entries : List ε → List ε') (request : ι → Option ι') :
    Command ε ι → Option (Command ε' ι')
  | .keyed r => (request r).map .keyed
  | .depth => some .depth
  | .push => some .push
  | .pushFrame es mark => some (.pushFrame (entries es) mark)
  | .pop => some .pop
  | .pushPopped => some .pushPopped
  | .scope body => some (.scope (translateAll entries request body))
  | .nest n body => some (.nest n (translateAll entries request body))
  | .rounds n body => some (.rounds n (translateAll entries request body))
  | .hashers => some .hashers
  | .root => some .root
  | .top => some .top
  | .frame index => some (.frame index)
  | .frames => some .frames
  | .framesBelow index => some (.framesBelow index)
  | .positionOfSize n => some (.positionOfSize n)
  | .visible => some .visible
  | .visibleFrames n => some (.visibleFrames n)
  | .visibleHints => some .visibleHints
  | .display layout => some (.display layout)
  | .save => some .save
  | .restore copy => some (.restore copy)
  | .equalsSaved copy => some (.equalsSaved copy)
  | .stackEqualsSaved copy => some (.stackEqualsSaved copy)
  | .equalsOther start mark body =>
    some (.equalsOther (start.translate entries) mark (translateAll entries request body))

/-- The commands with their entries and requests translated, without those left out. -/
def translateAll (entries : List ε → List ε') (request : ι → Option ι') :
    List (Command ε ι) → List (Command ε' ι')
  | [] => []
  | command :: rest =>
    (translate entries request command).toList ++ translateAll entries request rest

end

/-- The command only looks at the chain, and the other one does so in the same way. -/
inductive SameLook : Command ε ι → Command ε' ι' → Prop where
  | hashers : SameLook .hashers .hashers
  | root : SameLook .root .root
  | top : SameLook .top .top
  | frame (index : Nat) : SameLook (.frame index) (.frame index)
  | frames : SameLook .frames .frames
  | framesBelow (index : Nat) : SameLook (.framesBelow index) (.framesBelow index)
  | positionOfSize (n : Nat) : SameLook (.positionOfSize n) (.positionOfSize n)
  | visible : SameLook .visible .visible
  | visibleFrames (n : Nat) : SameLook (.visibleFrames n) (.visibleFrames n)
  | visibleHints : SameLook .visibleHints .visibleHints
  | display (layout : Document.Layout) : SameLook (.display layout) (.display layout)

/-- Only a request about keys can be left out of a translation. -/
theorem eq_keyed_of_translate_eq_none {entries : List ε → List ε'} {request : ι → Option ι'}
    {command : Command ε ι} (h : command.translate entries request = none) :
    ∃ r, command = .keyed r ∧ request r = none := by
  cases command with
  | keyed r =>
      rw [translate, Option.map_eq_none_iff] at h
      exact ⟨r, rfl, h⟩
  | _ => cases h

/-! ## What a program may ask -/

mutual

/--
All requests about keys in the command are permitted, and commands that look at more
than the depth occur only if they are permitted as well.
-/
def Within (request : ι → Prop) (looking : Prop) : Command ε ι → Prop
  | .keyed r => request r
  | .depth | .push | .pushFrame _ _ | .pop | .pushPopped | .save | .restore _ => True
  | .scope body | .nest _ body | .rounds _ body => AllWithin request looking body
  | .hashers | .root | .top | .frame _ | .frames | .framesBelow _ | .positionOfSize _ => looking
  | .visible | .visibleFrames _ | .visibleHints | .display _ => looking
  | .equalsSaved _ | .stackEqualsSaved _ => looking
  | .equalsOther _ _ body => looking ∧ AllWithin request looking body

/-- The same for every command of a list. -/
def AllWithin (request : ι → Prop) (looking : Prop) : List (Command ε ι) → Prop
  | [] => True
  | command :: rest => Within request looking command ∧ AllWithin request looking rest

end

mutual

/-- A command is within limits that exclude nothing. -/
theorem within_of_forall {request : ι → Prop} {looking : Prop} (hrequest : ∀ r, request r)
    (hlooking : looking) : ∀ command : Command ε ι, Within request looking command
  | .keyed r => hrequest r
  | .depth | .push | .pushFrame _ _ | .pop | .pushPopped | .save | .restore _ => trivial
  | .scope body | .nest _ body | .rounds _ body => allWithin_of_forall hrequest hlooking body
  | .hashers | .root | .top | .frame _ | .frames | .framesBelow _ | .positionOfSize _ => hlooking
  | .visible | .visibleFrames _ | .visibleHints | .display _ => hlooking
  | .equalsSaved _ | .stackEqualsSaved _ => hlooking
  | .equalsOther _ _ body => ⟨hlooking, allWithin_of_forall hrequest hlooking body⟩

/-- All commands of a list are within limits that exclude nothing. -/
theorem allWithin_of_forall {request : ι → Prop} {looking : Prop} (hrequest : ∀ r, request r)
    (hlooking : looking) : ∀ commands : List (Command ε ι), AllWithin request looking commands
  | [] => trivial
  | command :: rest =>
    ⟨within_of_forall hrequest hlooking command, allWithin_of_forall hrequest hlooking rest⟩

end

end Command

/-! ## Programs and their translations -/

namespace Correspondence

variable [Entry ε κ] [BEq κ] [Entry ε' κ'] [BEq κ'] (C : Correspondence ε ι ρ ε' ι' ρ')

/-- The translation of entries and requests goes along with the correspondence. -/
structure Translates (entries : List ε → List ε') (request : ι → Option ι')
    (permitted : ι → Prop) (looking : Prop) : Prop where
  mark : ∀ mark, C.mark mark mark
  entries : ∀ es, C.entries es (entries es)
  kept : ∀ r r', permitted r → request r = some r' → C.request r r' ∧ ¬C.dropped r
  omitted : ∀ r, permitted r → request r = none → C.dropped r
  comparable : looking → C.comparable
  look : looking → ∀ command command', Command.SameLook command command' →
    C.look command command'

variable {C} {entries : List ε → List ε'} {request : ι → Option ι'} {permitted : ι → Prop}
  {looking : Prop}

/-- A start corresponds to its translation. -/
theorem starts_translate (h : C.Translates entries request permitted looking) (start : Start ε) :
    C.Starts start (start.translate entries) := by
  cases start with
  | unchosen => exact .unchosen
  | empty => exact .empty
  | seeded es => exact .seeded (h.entries es)

/-- A command with a translation is not dropped. -/
theorem not_dropped_of_translate (h : C.Translates entries request permitted looking)
    {command : Command ε ι} {command' : Command ε' ι'} (hcommand : command.Within permitted looking)
    (heq : command.translate entries request = some command') : ¬C.Dropped command := by
  cases command with
  | keyed r =>
      rw [Command.translate, Option.map_eq_some_iff] at heq
      rcases heq with ⟨r', hr', -⟩
      exact (h.kept r r' hcommand hr').2
  | _ => exact id

mutual

/-- A command corresponds to its translation. -/
theorem matches_translate (h : C.Translates entries request permitted looking) :
    ∀ (command : Command ε ι) (command' : Command ε' ι'), command.Within permitted looking →
      command.translate entries request = some command' → C.Matches command command'
  | .keyed r, _, hr, heq => by
      rw [Command.translate, Option.map_eq_some_iff] at heq
      rcases heq with ⟨r', hr', rfl⟩
      exact .keyed (h.kept r r' hr hr').1
  | .depth, _, _, rfl => .depth
  | .push, _, _, rfl => .push
  | .pushFrame es mark, _, _, rfl => .pushFrame (h.entries es) (h.mark mark)
  | .pop, _, _, rfl => .pop
  | .pushPopped, _, _, rfl => .pushPopped
  | .scope body, _, hbody, rfl => .scope (matchesAll_translate h body hbody)
  | .nest n body, _, hbody, rfl => .nest n (matchesAll_translate h body hbody)
  | .rounds n body, _, hbody, rfl => .rounds n (matchesAll_translate h body hbody)
  | .hashers, _, hlook, rfl => .look (h.look hlook _ _ .hashers)
  | .root, _, hlook, rfl => .look (h.look hlook _ _ .root)
  | .top, _, hlook, rfl => .look (h.look hlook _ _ .top)
  | .frame index, _, hlook, rfl => .look (h.look hlook _ _ (.frame index))
  | .frames, _, hlook, rfl => .look (h.look hlook _ _ .frames)
  | .framesBelow index, _, hlook, rfl => .look (h.look hlook _ _ (.framesBelow index))
  | .positionOfSize n, _, hlook, rfl => .look (h.look hlook _ _ (.positionOfSize n))
  | .visible, _, hlook, rfl => .look (h.look hlook _ _ .visible)
  | .visibleFrames n, _, hlook, rfl => .look (h.look hlook _ _ (.visibleFrames n))
  | .visibleHints, _, hlook, rfl => .look (h.look hlook _ _ .visibleHints)
  | .display layout, _, hlook, rfl => .look (h.look hlook _ _ (.display layout))
  | .save, _, _, rfl => .save
  | .restore copy, _, _, rfl => .restore copy
  | .equalsSaved copy, _, hlook, rfl => .equalsSaved copy (h.comparable hlook)
  | .stackEqualsSaved copy, _, hlook, rfl => .stackEqualsSaved copy (h.comparable hlook)
  | .equalsOther start mark body, _, ⟨hlook, hbody⟩, rfl =>
    .equalsOther (h.comparable hlook) (starts_translate h start) (h.mark mark)
      (matchesAll_translate h body hbody)

/-- A program corresponds to its translation. -/
theorem matchesAll_translate (h : C.Translates entries request permitted looking) :
    ∀ commands : List (Command ε ι), Command.AllWithin permitted looking commands →
      C.MatchesAll commands (Command.translateAll entries request commands)
  | [], _ => .nil
  | command :: rest, ⟨hcommand, hrest⟩ => by
      have htail := matchesAll_translate h rest hrest
      rw [Command.translateAll]
      cases heq : command.translate entries request with
      | some command' =>
          exact .cons (not_dropped_of_translate h hcommand heq)
            (matches_translate h command command' hcommand heq) htail
      | none =>
          rcases Command.eq_keyed_of_translate_eq_none heq with ⟨r, rfl, hr⟩
          exact .drop (h.omitted r hcommand hr) htail

end

end Correspondence
end LexicalScope
