import LexicalScope.Proofs.Session.Related

/-!
# Simulation of sessions

Two lists of commands for two kinds of chains correspond to each other if they have the
same structure, with corresponding requests about keys at the leaves; some requests of
the first list may have no counterpart in the second one.  If single requests do related
things to related chains, so do whole runs: the commands that have a counterpart are
answered alike, are followed by the same depth and record the same events.

The proof of this is by induction on the correspondence of the commands, and every
other step of it is about a single operation.

Main results:

- Theorem {lit}`Correspondence.Sound.exec`: corresponding commands simulate each other,
  however deep they are nested.
- Theorem {lit}`Correspondence.Sound.run`: so do the runs of corresponding programs, step by
  step.
-/

namespace LexicalScope

variable {ε ι ρ κ ε' ι' ρ' κ' : Type} [Entry ε κ] [BEq κ] [Entry ε' κ'] [BEq κ']

/-! ## Corresponding commands -/

/-- How the requests, the answers and the frames of two kinds of sessions correspond. -/
structure Correspondence (ε ι ρ ε' ι' ρ' : Type) {κ κ' : Type} [Entry ε κ] [BEq κ] [Entry ε' κ']
    [BEq κ'] where
  /-- Which hashers correspond. -/
  label : Hasher → Hasher → Prop
  /-- Which marks correspond. -/
  mark : Option UInt64 → Option UInt64 → Prop
  /-- Which frames correspond. -/
  frame : Frame ε → Frame ε' → Prop
  /-- Which lists of entries of a new frame correspond. -/
  entries : List ε → List ε' → Prop
  /-- Which requests about keys correspond. -/
  request : ι → ι' → Prop
  /-- Which requests about keys have no counterpart. -/
  dropped : ι → Prop
  /-- Which answers to requests about keys correspond. -/
  answer : ρ → ρ' → Prop
  /-- Whether a program may ask if chains are equal. -/
  comparable : Prop
  /-- Which commands that only look at the chain correspond. -/
  look : Command ε ι → Command ε' ι' → Prop
  /-- Which answers to these commands correspond. -/
  sight : Answer ε ρ → Answer ε' ρ' → Prop

namespace Correspondence

variable (C : Correspondence ε ι ρ ε' ι' ρ')

/-- The command is a request that has no counterpart. -/
def Dropped : Command ε ι → Prop
  | .keyed request => C.dropped request
  | _ => False

/-- Corresponding ways to start a chain. -/
inductive Starts : Start ε → Start ε' → Prop where
  | unchosen : Starts .unchosen .unchosen
  | empty : Starts .empty .empty
  | seeded {entries : List ε} {entries' : List ε'} (h : C.entries entries entries') :
      Starts (.seeded entries) (.seeded entries')

mutual

/-- Corresponding commands. -/
inductive Matches : Command ε ι → Command ε' ι' → Prop where
  | keyed {r : ι} {r' : ι'} (h : C.request r r') : Matches (.keyed r) (.keyed r')
  | depth : Matches .depth .depth
  | push : Matches .push .push
  | pushFrame {entries : List ε} {entries' : List ε'} {mark mark' : Option UInt64}
      (h : C.entries entries entries') (hmark : C.mark mark mark') :
      Matches (.pushFrame entries mark) (.pushFrame entries' mark')
  | pop : Matches .pop .pop
  | pushPopped : Matches .pushPopped .pushPopped
  | scope {body : List (Command ε ι)} {body' : List (Command ε' ι')} (h : MatchesAll body body') :
      Matches (.scope body) (.scope body')
  | nest {body : List (Command ε ι)} {body' : List (Command ε' ι')} (n : Nat)
      (h : MatchesAll body body') : Matches (.nest n body) (.nest n body')
  | rounds {body : List (Command ε ι)} {body' : List (Command ε' ι')} (n : Nat)
      (h : MatchesAll body body') : Matches (.rounds n body) (.rounds n body')
  | save : Matches .save .save
  | restore (copy : Nat) : Matches (.restore copy) (.restore copy)
  | equalsSaved (copy : Nat) (h : C.comparable) : Matches (.equalsSaved copy) (.equalsSaved copy)
  | stackEqualsSaved (copy : Nat) (h : C.comparable) :
      Matches (.stackEqualsSaved copy) (.stackEqualsSaved copy)
  | equalsOther {start : Start ε} {start' : Start ε'} {mark mark' : Option UInt64}
      {body : List (Command ε ι)} {body' : List (Command ε' ι')} (h : C.comparable)
      (hstart : C.Starts start start') (hmark : C.mark mark mark') (hbody : MatchesAll body body') :
      Matches (.equalsOther start mark body) (.equalsOther start' mark' body')
  | look {command : Command ε ι} {command' : Command ε' ι'} (h : C.look command command') :
      Matches command command'

/-- Corresponding lists of commands; requests without a counterpart are passed over. -/
inductive MatchesAll : List (Command ε ι) → List (Command ε' ι') → Prop where
  | nil : MatchesAll [] []
  | cons {command : Command ε ι} {command' : Command ε' ι'} {rest : List (Command ε ι)}
      {rest' : List (Command ε' ι')} (hkept : ¬C.Dropped command) (h : Matches command command')
      (hrest : MatchesAll rest rest') : MatchesAll (command :: rest) (command' :: rest')
  | drop {r : ι} {rest : List (Command ε ι)} {rest' : List (Command ε' ι')} (h : C.dropped r)
      (hrest : MatchesAll rest rest') : MatchesAll (.keyed r :: rest) rest'

end

/-! ## Corresponding answers -/

mutual

/-- Corresponding answers to a command. -/
inductive Answers : Command ε ι → Answer ε ρ → Answer ε' ρ' → Prop where
  | keyed {command : Command ε ι} {a : ρ} {a' : ρ'} (h : C.answer a a') :
      Answers command (.keyed a) (.keyed a')
  | done {command : Command ε ι} : Answers command .done .done
  | number {command : Command ε ι} (n : Nat) : Answers command (.number n) (.number n)
  | flag {command : Command ε ι} (b : Bool) : Answers command (.flag b) (.flag b)
  | popped {command : Command ε ι} {outcome : Except Error (Frame ε)}
      {outcome' : Except Error (Frame ε')} (h : OutcomeRel C.frame outcome outcome') :
      Answers command (.popped outcome) (.popped outcome')
  | noSuchCopy {command : Command ε ι} : Answers command .noSuchCopy .noSuchCopy
  | scope {body : List (Command ε ι)} {answers : List (Answer ε ρ × Nat)}
      {answers' : List (Answer ε' ρ' × Nat)} (h : AnswersAll body answers answers') :
      Answers (.scope body) (.answers answers) (.answers answers')
  | nest {n : Nat} {body : List (Command ε ι)} {answers : List (Answer ε ρ × Nat)}
      {answers' : List (Answer ε' ρ' × Nat)} (h : AnswersAll body answers answers') :
      Answers (.nest n body) (.answers answers) (.answers answers')
  | rounds {n : Nat} {body : List (Command ε ι)} {answers : List (Answer ε ρ × Nat)}
      {answers' : List (Answer ε' ρ' × Nat)} (h : AnswersAll body answers answers') :
      Answers (.rounds n body) (.answers answers) (.answers answers')
  | sight {command : Command ε ι} {a : Answer ε ρ} {a' : Answer ε' ρ'} (h : C.sight a a') :
      Answers command a a'

/--
Corresponding answers to a list of commands, each with the same depth after it.  The
answers to requests without a counterpart are passed over.
-/
inductive AnswersAll :
    List (Command ε ι) → List (Answer ε ρ × Nat) → List (Answer ε' ρ' × Nat) → Prop where
  | nil : AnswersAll [] [] []
  | cons {command : Command ε ι} {rest : List (Command ε ι)} {a : Answer ε ρ} {a' : Answer ε' ρ'}
      {answers : List (Answer ε ρ × Nat)} {answers' : List (Answer ε' ρ' × Nat)} (depth : Nat)
      (hkept : ¬C.Dropped command) (h : Answers command a a')
      (hrest : AnswersAll rest answers answers') :
      AnswersAll (command :: rest) ((a, depth) :: answers) ((a', depth) :: answers')
  | drop {r : ι} {rest : List (Command ε ι)} {a : Answer ε ρ × Nat}
      {answers : List (Answer ε ρ × Nat)} {answers' : List (Answer ε' ρ' × Nat)} (h : C.dropped r)
      (hrest : AnswersAll rest answers answers') :
      AnswersAll (.keyed r :: rest) (a :: answers) answers'

end

/-! ## The obligations -/

variable [Ord κ] [Ord κ']

/-- What has to be shown of single operations. -/
structure Sound (dialect : Dialect ε ι ρ) (dialect' : Dialect ε' ι' ρ') : Prop where
  label_unchosen : ∀ {h h'}, C.label h h' → C.label h.unchosen h'.unchosen
  label_withMark : ∀ {h h' mark mark'}, C.label h h' → C.mark mark mark' →
    C.label (h.withMark mark) (h'.withMark mark')
  label_frame : ∀ {f g}, C.frame f g → C.label f.hasher g.hasher
  frame_empty : ∀ {h h'}, C.label h h' → C.frame (.empty h) (.empty h')
  frame_ofList : ∀ {h h' entries entries'}, C.label h h' → C.entries entries entries' →
    C.frame (.ofList h entries) (.ofList h' entries')
  request : ∀ {r r' c d}, C.request r r' → Chain.Related C.label C.frame c d →
    OutcomeRel C.answer (dialect.fulfil r c).1 (dialect'.fulfil r' d).1 ∧
      Chain.Related C.label C.frame (dialect.fulfil r c).2 (dialect'.fulfil r' d).2
  dropped : ∀ {r c d}, C.dropped r → Chain.Related C.label C.frame c d →
    (∃ a, (dialect.fulfil r c).1 = .ok a) ∧
      Chain.Related C.label C.frame (dialect.fulfil r c).2 d
  equal : ∀ {s t s' t'}, C.comparable → Stack.Related C.frame s t → Stack.Related C.frame s' t' →
    (s == s') = (t == t')
  look : ∀ {command command'}, C.look command command' →
    Session.Simulates C.label C.frame C.sight (Session.exec dialect command)
      (Session.exec dialect' command')

namespace Sound

open Session

variable {C} {dialect : Dialect ε ι ρ} {dialect' : Dialect ε' ι' ρ'}

/-- Corresponding starts with related hashers give related chains. -/
theorem related_start (h : C.Sound dialect dialect') {start : Start ε} {start' : Start ε'}
    (hstart : C.Starts start start') {hasher hasher' : Hasher} (hlabel : C.label hasher hasher') :
    Chain.Related C.label C.frame (start.chain hasher) (start'.chain hasher') := by
  cases hstart with
  | unchosen =>
      have hroot := h.label_unchosen hlabel
      exact ⟨hroot, .ofRoot (h.frame_empty hroot)⟩
  | empty => exact ⟨hlabel, .ofRoot (h.frame_empty hlabel)⟩
  | seeded hentries =>
      have hroot := h.frame_ofList hlabel hentries
      exact ⟨h.label_frame hroot, .ofRoot hroot⟩

/-! ## Commands -/

/-- A request without a counterpart is answered, and the session stays related. -/
theorem exec_dropped (h : C.Sound dialect dialect') {r : ι} (hr : C.dropped r) {s : Session ε}
    {t : Session ε'} (hst : Related C.label C.frame s t) :
    ∃ a s', Session.exec dialect (.keyed r) s = .ok a s' ∧ Related C.label C.frame s' t := by
  rcases h.dropped hr hst.chain with ⟨⟨a, ha⟩, hchain⟩
  refine ⟨.keyed a, { s with chain := (dialect.fulfil r s.chain).2 }, ?_,
    ⟨hst.hasher, hchain, hst.saved, hst.popped, hst.log⟩⟩
  rw [exec_keyed]
  rcases hs : dialect.fulfil r s.chain with ⟨outcome, c⟩
  rw [hs] at ha
  cases ha
  rfl

mutual

/-- Corresponding commands simulate each other. -/
theorem exec (h : C.Sound dialect dialect') {command : Command ε ι} {command' : Command ε' ι'} :
    C.Matches command command' →
      Simulates C.label C.frame (C.Answers command) (Session.exec dialect command)
        (Session.exec dialect' command')
  | .keyed hrequest => by
      intro s t hst
      rcases h.request hrequest hst.chain with ⟨hanswer, hchain⟩
      rw [exec_keyed, exec_keyed]
      rcases hs : dialect.fulfil _ s.chain with ⟨a, c⟩
      rcases ht : dialect'.fulfil _ t.chain with ⟨b, d⟩
      rw [hs, ht] at hanswer hchain
      rcases outcomeRel_cases hanswer with ⟨x, y, rfl, rfl, hxy⟩ | ⟨fault, rfl, rfl⟩
      · exact .ok (.keyed hxy) (hst.withChain hchain)
      · exact .error fault (hst.withChain hchain)
  | .depth => by
      rw [Session.exec, Session.exec]
      apply Simulates.map (Simulates.ask fun c d hcd => hcd.depth)
      rintro n n' rfl
      exact .number n
  | .push => by
      intro s t hst
      rw [exec_push, exec_push]
      exact .ok .done (hst.afterPush (h.frame_empty hst.chain.label))
  | .pushFrame hentries hmark => by
      intro s t hst
      rw [exec_pushFrame, exec_pushFrame]
      exact .ok .done
        (hst.afterPush (h.frame_ofList (h.label_withMark hst.hasher hmark) hentries))
  | .pop => by
      intro s t hst
      have hafter := hst.afterPop
      rw [exec_pop, exec_pop]
      refine .ok (.popped hst.chain.pop.1) ⟨hafter.hasher, hafter.chain, hafter.saved, ?_, hafter.log⟩
      rcases outcomeRel_cases hst.chain.pop.1 with ⟨f, g, hs, ht, hfg⟩ | ⟨e, hs, ht⟩
      · simp only [hs, ht]
        exact .some hfg
      · simp only [hs, ht]
        exact hst.popped
  | .pushPopped => by
      intro s t hst
      rw [exec_pushPopped, exec_pushPopped]
      rcases optionRel_cases hst.popped with ⟨hs, ht⟩ | ⟨f, g, hs, ht, hfg⟩
      · rw [hs, ht]
        exact .ok (.flag false) hst
      · rw [hs, ht]
        exact .ok (.flag true) (hst.afterPush hfg)
  | .scope hbody => by
      rw [Session.exec, Session.exec]
      exact Simulates.map (Simulates.inScope (fun _ _ => h.frame_empty) (execAll h hbody))
        fun _ _ => .scope
  | .nest n hbody => by
      rw [Session.exec, Session.exec]
      exact Simulates.map (Simulates.inScopes (fun _ _ => h.frame_empty) (execAll h hbody) n)
        fun _ _ => .nest
  | .rounds n hbody => by
      rw [Session.exec, Session.exec]
      apply Simulates.bind (Simulates.rounds (execAll h hbody) n)
      intro last last' hlast
      rcases optionRel_cases hlast with ⟨rfl, rfl⟩ | ⟨answers, answers', rfl, rfl, hanswers⟩
      · exact Simulates.pure .done
      · exact Simulates.pure (.rounds hanswers)
  | .save => by
      intro s t hst
      have hsize : s.saved.size = t.saved.size := hst.saved.length_eq
      rw [exec_save, exec_save, hsize]
      refine .ok (.number _) ⟨hst.hasher, hst.chain, ?_, hst.popped, hst.log⟩
      rw [Array.toList_push, Array.toList_push]
      exact List.rel_append hst.saved (.cons hst.chain .nil)
  | .restore copy => by
      intro s t hst
      rw [exec_restore, exec_restore]
      rcases optionRel_cases (hst.copy copy) with ⟨hs, ht⟩ | ⟨c, d, hs, ht, hcd⟩
      · rw [hs, ht]
        exact .ok .noSuchCopy hst
      · rw [hs, ht]
        exact .ok .done (hst.withChain hcd)
  | .equalsSaved copy hequal => by
      intro s t hst
      rw [exec_equalsSaved, exec_equalsSaved]
      rcases optionRel_cases (hst.copy copy) with ⟨hs, ht⟩ | ⟨c, d, hs, ht, hcd⟩
      · rw [hs, ht]
        exact .ok .noSuchCopy hst
      · have heq : (s.chain == c) = (t.chain == d) := h.equal hequal hst.chain.stack hcd.stack
        simp only [hs, ht, heq]
        exact .ok (.flag _) hst
  | .stackEqualsSaved copy hequal => by
      intro s t hst
      rw [exec_stackEqualsSaved, exec_stackEqualsSaved]
      rcases optionRel_cases (hst.copy copy) with ⟨hs, ht⟩ | ⟨c, d, hs, ht, hcd⟩
      · rw [hs, ht]
        exact .ok .noSuchCopy hst
      · have heq := h.equal hequal hst.chain.stack hcd.stack
        simp only [hs, ht, heq]
        exact .ok (.flag _) hst
  | .equalsOther hequal hstart hmark hbody => by
      rw [Session.exec, Session.exec]
      apply Simulates.bind Simulates.get
      intro s t hst
      have hlabel := h.label_withMark hst.hasher hmark
      refine Simulates.bind
        (Simulates.aside (execAll h hbody) hlabel (h.related_start hstart hlabel)) fun c d hcd => ?_
      apply Simulates.map (Simulates.ask fun c' d' hcd' => h.equal hequal hcd'.stack hcd.stack)
      rintro b b' rfl
      exact .flag b
  | .look hlook => by
      intro s t hst
      rcases alike_cases (h.look hlook s t hst) with
        ⟨a, b, s₁, t₁, hs, ht, hab, h₁⟩ | ⟨fault, s₁, t₁, hs, ht, h₁⟩
      · rw [hs, ht]
        exact .ok (.sight hab) h₁
      · rw [hs, ht]
        exact .error fault h₁

/-- Corresponding lists of commands simulate each other. -/
theorem execAll (h : C.Sound dialect dialect') {commands : List (Command ε ι)}
    {commands' : List (Command ε' ι')} :
    C.MatchesAll commands commands' →
      Simulates C.label C.frame (C.AnswersAll commands) (Session.execAll dialect commands)
        (Session.execAll dialect' commands')
  | .nil => by
      rw [Session.execAll, Session.execAll]
      exact Simulates.pure .nil
  | .cons hkept hcommand hrest => by
      rw [Session.execAll, Session.execAll]
      apply Simulates.bind (exec h hcommand)
      intro a b hab
      apply Simulates.bind (Simulates.ask fun c d hcd => hcd.depth)
      intro n n' hn
      subst hn
      apply Simulates.bind (execAll h hrest)
      intro as bs hrest
      exact Simulates.pure (.cons n hkept hab hrest)
  | .drop hdrop hrest => by
      intro s t hst
      rcases h.exec_dropped hdrop hst with ⟨a, s', hhead, hafter⟩
      rw [Session.execAll]
      simp only [bind, EStateM.bind, hhead, ask]
      rcases alike_cases (execAll h hrest _ t hafter) with
        ⟨as, bs, s₁, t₁, hs, ht, hab, h₁⟩ | ⟨fault, s₁, t₁, hs, ht, h₁⟩
      · rw [hs, ht]
        exact .ok (.drop hdrop hab) h₁
      · rw [hs, ht]
        exact .error fault h₁

end

end Sound

/-! ## Steps and runs -/

/-- Corresponding reports of the steps of a program; those of dropped requests are passed over. -/
inductive Reports : List (Command ε ι) → List (Session.Report ε ρ) → List (Session.Report ε' ρ') →
    Prop where
  | nil : Reports [] [] []
  | cons {command : Command ε ι} {rest : List (Command ε ι)} {report : Session.Report ε ρ}
      {report' : Session.Report ε' ρ'} {reports : List (Session.Report ε ρ)}
      {reports' : List (Session.Report ε' ρ')} (hkept : ¬C.Dropped command)
      (hanswer : OutcomeRel (C.Answers command) report.answer report'.answer)
      (hafter : report.after.Related C.label C.frame report'.after)
      (hrest : Reports rest reports reports') :
      Reports (command :: rest) (report :: reports) (report' :: reports')
  | drop {r : ι} {rest : List (Command ε ι)} {report : Session.Report ε ρ}
      {reports : List (Session.Report ε ρ)} {reports' : List (Session.Report ε' ρ')}
      (h : C.dropped r) (hrest : Reports rest reports reports') :
      Reports (.keyed r :: rest) (report :: reports) reports'

namespace Sound

open Session

variable {C} {dialect : Dialect ε ι ρ} {dialect' : Dialect ε' ι' ρ'}

/-- Corresponding commands, each run as a step, report alike and leave related sessions. -/
theorem step (h : C.Sound dialect dialect') {command : Command ε ι} {command' : Command ε' ι'}
    (hcommand : C.Matches command command') {s : Session ε} {t : Session ε'}
    (hst : Related C.label C.frame { s with log := #[] } { t with log := #[] }) :
    OutcomeRel (C.Answers command) (Session.step dialect command s).answer
        (Session.step dialect' command' t).answer ∧
      Related C.label C.frame (Session.step dialect command s).after
        (Session.step dialect' command' t).after := by
  unfold Session.step
  rcases alike_cases (h.exec hcommand _ _ hst) with
    ⟨a, b, s₁, t₁, hs, ht, hab, h₁⟩ | ⟨fault, s₁, t₁, hs, ht, h₁⟩
  · rw [hs, ht]
    exact ⟨.ok hab, h₁⟩
  · rw [hs, ht]
    exact ⟨.error fault, h₁⟩

/--
The runs of corresponding programs correspond step by step.  A dropped request clears the
events of the first session only, so in between the events do not count.
-/
theorem run (h : C.Sound dialect dialect') {program : List (Command ε ι)}
    {program' : List (Command ε' ι')} (hprogram : C.MatchesAll program program') {s : Session ε}
    {t : Session ε'} (hst : Related C.label C.frame { s with log := #[] } { t with log := #[] }) :
    C.Reports program (Session.run dialect program s).1 (Session.run dialect' program' t).1 ∧
      Related C.label C.frame { (Session.run dialect program s).2 with log := #[] }
        { (Session.run dialect' program' t).2 with log := #[] } := by
  induction program generalizing program' s t with
  | nil =>
      cases hprogram
      exact ⟨.nil, hst⟩
  | cons command rest ih =>
      cases hprogram with
      | cons hkept hcommand hrest =>
          rcases h.step hcommand hst with ⟨hanswer, hafter⟩
          rcases ih hrest (hafter.withLog rfl) with ⟨hreports, hlast⟩
          exact ⟨.cons hkept hanswer hafter hreports, hlast⟩
      | @drop r _ _ hdrop hrest =>
          rcases h.exec_dropped hdrop hst with ⟨a, s', hexec, hafter⟩
          have hstep : (Session.step dialect (.keyed r) s).after = s' := by
            rw [Session.step, hexec]
          rw [← hstep] at hafter
          rcases ih hrest (t := t) (hafter.withLog rfl) with ⟨hreports, hlast⟩
          exact ⟨.drop hdrop hreports, hlast⟩

end Sound
end Correspondence
end LexicalScope
