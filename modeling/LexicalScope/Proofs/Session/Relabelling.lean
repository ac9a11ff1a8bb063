import LexicalScope.Key.CaseFolded
import LexicalScope.Proofs.Chain.Alike
import LexicalScope.Proofs.Frame.SameEntries
import LexicalScope.Proofs.Session.Looks
import LexicalScope.Value

/-!
# Programs without their hashers

A hasher is a label on a frame.  It goes wherever the frame goes, into saved copies and onto
other stacks, but nothing except a question for the hashers themselves ever reads it.  So a
program runs the same whatever hashers it starts with and whatever marks it asks for on the
way: if the labels are taken off, the answers, the depths, the events, the faults and the
frames are equal.

Main results:

- Theorem {lit}`Correspondence.sound_relabelled`: single operations on sessions that differ in
  their hashers.
- Theorem {lit}`Session.hashers_invisible`: whole programs, for chains of bindings and for chains
  of names.
-/

namespace LexicalScope

variable {ε ι ρ κ ν : Type}

/-! ## Commands, answers and sessions without hashers -/

namespace Command

mutual

/-- The command with all requests for marks left out. -/
def unmarked : Command ε ι → Command ε ι
  | .pushFrame entries _ => .pushFrame entries none
  | .scope body => .scope (unmarkedAll body)
  | .nest n body => .nest n (unmarkedAll body)
  | .rounds n body => .rounds n (unmarkedAll body)
  | .equalsOther start _ body => .equalsOther start none (unmarkedAll body)
  | command => command

/-- The commands with all requests for marks left out. -/
def unmarkedAll : List (Command ε ι) → List (Command ε ι)
  | [] => []
  | command :: rest => unmarked command :: unmarkedAll rest

end

end Command

variable [Entry ε κ] [BEq κ]

namespace Answer

mutual

/--
The answer as if every hasher that it shows, by itself or with a frame, were the standard one.
An answer that shows neither hashers nor frames stays as it is.
-/
def unlabelled : Answer ε ρ → Answer ε ρ
  | .popped outcome => .popped (outcome.map Frame.unlabelled)
  | .frame f => .frame f.unlabelled
  | .frameAt f => .frameAt (f.map Frame.unlabelled)
  | .frames fs => .frames (fs.map Frame.unlabelled)
  | .hashers hs => .hashers (hs.map fun _ => .standard)
  | .answers as => .answers (unlabelledAll as)
  | answer => answer

/-- The answers to a list of commands, with the same depths. -/
def unlabelledAll : List (Answer ε ρ × Nat) → List (Answer ε ρ × Nat)
  | [] => []
  | (answer, depth) :: rest => (unlabelled answer, depth) :: unlabelledAll rest

end

end Answer

/-- The chain as if it and its frames had been made with the standard hasher. -/
def Chain.unlabelled (c : Chain ε) : Chain ε :=
  ⟨.standard, c.stack.root.unlabelled, c.stack.pushed.map Frame.unlabelled⟩

namespace Session

/-- The session as if every hasher in it were the standard one. -/
def unlabelled (s : Session ε) : Session ε where
  hasher := .standard
  chain := s.chain.unlabelled
  saved := s.saved.map Chain.unlabelled
  popped := s.popped.map Frame.unlabelled
  log := s.log

/-- What a step shows apart from hashers. -/
def Report.unlabelled (report : Report ε ρ) : Report ε ρ where
  answer := report.answer.map Answer.unlabelled
  after := report.after.unlabelled

end Session

/-! ## Chains that differ in their hashers -/

namespace Chain

/-- The frames have the same entries, index by index. -/
abbrev SameEntries : Chain ε → Chain ε → Prop :=
  Related (fun _ _ => True) Frame.SameEntries

/-- Taking the hashers off a chain takes them off all its frames. -/
theorem toList_unlabelled (c : Chain ε) :
    c.unlabelled.stack.toList = c.stack.toList.map Frame.unlabelled := by
  simp [unlabelled, Stack.toList]

/-- A chain has the same entries without its hashers. -/
theorem sameEntries_unlabelled (c : Chain ε) : c.SameEntries c.unlabelled := by
  refine ⟨trivial, ?_⟩
  rw [Stack.Related, toList_unlabelled]
  exact List.forall₂_map_right_iff.mpr
    (List.forall₂_same.mpr fun f _ => f.sameEntries_unlabelled)

namespace SameEntries

variable {c d : Chain ε}

/-- Chains with the same entries are equal without their hashers. -/
theorem unlabelled_eq (h : SameEntries c d) : c.unlabelled = d.unlabelled := by
  have hframes : c.unlabelled.stack = d.unlabelled.stack := by
    apply Stack.ext_toList
    rw [toList_unlabelled, toList_unlabelled]
    exact map_eq_map_of_forall₂ h.stack fun _ _ => Frame.unlabelled_eq_iff.mpr
  exact congrArg (Chain.mk .standard) hframes

/-- Frames with the same entries find equal ones. -/
theorem find? (k : κ) (f g : Frame ε) (h : f.SameEntries g) :
    Option.Rel Eq (f.find? k) (g.find? k) :=
  optionRel_eq_iff.mpr (h.find? k)

/-- A key resolves to the same index in both chains. -/
theorem resolve (h : SameEntries c d) (k : κ) : c.resolve k = d.resolve k :=
  Related.resolve (find? k) h

/-- The frames have equal entries in pairs. -/
theorem entries_eq (h : SameEntries c d) :
    c.stack.Related (fun f g => f.entries = g.entries.map id) d.stack :=
  List.Forall₂.imp (fun f g hfg => by rw [List.map_id]; exact hfg) h.stack

/-- The visible entries of the chains are listed equally. -/
theorem visibleGroups [Ord κ] (h : SameEntries c d) : c.visibleGroups = d.visibleGroups := by
  rw [visibleGroups_image (fun _ => rfl) h.entries_eq h.resolve]
  simp

/-- The first visible entries are held by frames with the same indexes. -/
theorem visibleFrames (h : SameEntries c d) (n : Nat) : c.visibleFrames n = d.visibleFrames n :=
  visibleFrames_image (fun _ => rfl) h.entries_eq h.resolve n

end SameEntries
end Chain

namespace Session

/-- A session has the same entries without its hashers. -/
theorem related_unlabelled (s : Session ε) :
    Related (fun _ _ => True) Frame.SameEntries s s.unlabelled := by
  refine ⟨trivial, s.chain.sameEntries_unlabelled, ?_, ?_, rfl⟩
  · rw [unlabelled, Array.toList_map]
    exact List.forall₂_map_right_iff.mpr
      (List.forall₂_same.mpr fun c _ => c.sameEntries_unlabelled)
  · rw [unlabelled]
    cases s.popped with
    | none => exact .none
    | some f => exact .some f.sameEntries_unlabelled

/-- Sessions with the same entries are equal without their hashers. -/
theorem Related.unlabelled_eq {s t : Session ε}
    (h : Related (fun _ _ => True) Frame.SameEntries s t) : s.unlabelled = t.unlabelled := by
  have hsaved : s.saved.map Chain.unlabelled = t.saved.map Chain.unlabelled := by
    rw [← Array.toList_inj, Array.toList_map, Array.toList_map]
    exact map_eq_map_of_forall₂ h.saved fun _ _ => Chain.SameEntries.unlabelled_eq
  have hpopped : s.popped.map Frame.unlabelled = t.popped.map Frame.unlabelled := by
    rcases optionRel_cases h.popped with ⟨hs, ht⟩ | ⟨f, g, hs, ht, hfg⟩
    · rw [hs, ht]
    · rw [hs, ht, Option.map_some, Option.map_some, Frame.unlabelled_eq_iff.mpr hfg]
  rw [unlabelled, unlabelled, Chain.SameEntries.unlabelled_eq h.chain, hsaved, hpopped, h.log]

end Session

/-! ## The correspondence -/

namespace Correspondence

/-- The correspondence of commands that differ in their marks, on chains with the same entries. -/
def relabelled : Correspondence ε ι ρ ε ι ρ where
  label _ _ := True
  mark _ _ := True
  frame := Frame.SameEntries
  entries := Eq
  request := Eq
  dropped _ := False
  answer := Eq
  comparable := True
  look := Command.SameLook
  sight a b := a.unlabelled = b.unlabelled

/-- A start corresponds to itself. -/
theorem starts_relabelled (start : Start ε) :
    (relabelled : Correspondence ε ι ρ ε ι ρ).Starts start start := by
  cases start with
  | unchosen => exact .unchosen
  | empty => exact .empty
  | seeded entries => exact .seeded rfl

mutual

/-- A command corresponds to the one without marks. -/
theorem matches_unmarked : ∀ command : Command ε ι,
    (relabelled : Correspondence ε ι ρ ε ι ρ).Matches command command.unmarked
  | .keyed _ => .keyed rfl
  | .depth => .depth
  | .push => .push
  | .pushFrame _ _ => .pushFrame rfl trivial
  | .pop => .pop
  | .pushPopped => .pushPopped
  | .scope body => .scope (matchesAll_unmarkedAll body)
  | .nest n body => .nest n (matchesAll_unmarkedAll body)
  | .rounds n body => .rounds n (matchesAll_unmarkedAll body)
  | .hashers => .look .hashers
  | .root => .look .root
  | .top => .look .top
  | .frame index => .look (.frame index)
  | .frames => .look .frames
  | .framesBelow index => .look (.framesBelow index)
  | .positionOfSize n => .look (.positionOfSize n)
  | .visible => .look .visible
  | .visibleFrames n => .look (.visibleFrames n)
  | .visibleHints => .look .visibleHints
  | .display layout => .look (.display layout)
  | .save => .save
  | .restore copy => .restore copy
  | .equalsSaved copy => .equalsSaved copy trivial
  | .stackEqualsSaved copy => .stackEqualsSaved copy trivial
  | .equalsOther start _ body =>
    .equalsOther trivial (starts_relabelled start) trivial (matchesAll_unmarkedAll body)

/-- A program corresponds to the one without marks. -/
theorem matchesAll_unmarkedAll : ∀ commands : List (Command ε ι),
    (relabelled : Correspondence ε ι ρ ε ι ρ).MatchesAll commands (Command.unmarkedAll commands)
  | [] => .nil
  | command :: rest => .cons (by cases command <;> exact id) (matches_unmarked command)
      (matchesAll_unmarkedAll rest)

end

/-! ## Answers and reports without hashers -/

mutual

/-- Corresponding answers are equal if the labels are taken off. -/
theorem unlabelled_eq_of_answers {command : Command ε ι} {a b : Answer ε ρ} :
    relabelled.Answers command a b → a.unlabelled = b.unlabelled
  | .keyed (rfl : _ = _) => rfl
  | .done => rfl
  | .number _ => rfl
  | .flag _ => rfl
  | .popped h => by
      have hframes := h.map fun _ _ => Frame.unlabelled_eq_iff.mpr
      rw [Answer.unlabelled, Answer.unlabelled, outcomeRel_eq_iff.mp hframes]
  | .noSuchCopy => rfl
  | .scope h => by rw [Answer.unlabelled, Answer.unlabelled, unlabelledAll_eq_of_answersAll h]
  | .nest h => by rw [Answer.unlabelled, Answer.unlabelled, unlabelledAll_eq_of_answersAll h]
  | .rounds h => by rw [Answer.unlabelled, Answer.unlabelled, unlabelledAll_eq_of_answersAll h]
  | .sight h => h

/-- Lists of corresponding answers are equal without their hashers. -/
theorem unlabelledAll_eq_of_answersAll {commands : List (Command ε ι)}
    {as bs : List (Answer ε ρ × Nat)} :
    relabelled.AnswersAll commands as bs → Answer.unlabelledAll as = Answer.unlabelledAll bs
  | .nil => rfl
  | .cons depth _ hanswer hrest => by
      rw [Answer.unlabelledAll, Answer.unlabelledAll, unlabelled_eq_of_answers hanswer,
        unlabelledAll_eq_of_answersAll hrest]
  | .drop h _ => h.elim

end

/-- Corresponding reports are equal without their hashers. -/
theorem unlabelled_eq_of_reports {program : List (Command ε ι)}
    {reports reports' : List (Session.Report ε ρ)}
    (h : relabelled.Reports program reports reports') :
    reports.map Session.Report.unlabelled = reports'.map Session.Report.unlabelled := by
  induction h with
  | nil => rfl
  | cons _ hanswer hafter _ ih =>
      have hanswers := outcomeRel_eq_iff.mp (hanswer.map fun _ _ => unlabelled_eq_of_answers)
      rw [List.map_cons, List.map_cons, ih, Session.Report.unlabelled, Session.Report.unlabelled,
        hanswers, hafter.unlabelled_eq]
  | drop h _ _ => exact h.elim

/-! ## Single operations -/

section Sound

variable [Ord κ] {dialect : Dialect ε ι ρ}
  (hdocument : ∀ c d : Chain ε, c.SameEntries d → dialect.document c = dialect.document d)
include hdocument

/-- What commands see of chains with the same entries is equal without the hashers. -/
theorem relabelled_sights :
    Sights dialect dialect (fun _ => True) (fun _ _ => True) Frame.SameEntries
      fun a b => a.unlabelled = b.unlabelled where
  hashers := by
    intro _ c d hcd
    have hcount : c.hashers.map (fun _ => Hasher.standard) = d.hashers.map fun _ => .standard := by
      rw [Chain.hashers, Chain.hashers, List.map_map, List.map_map]
      exact map_eq_map_of_forall₂ hcd.stack fun _ _ _ => rfl
    rw [Answer.unlabelled, Answer.unlabelled, hcount]
  frame := by
    intro f g hfg
    rw [Answer.unlabelled, Answer.unlabelled, Frame.unlabelled_eq_iff.mpr hfg]
  frameAt := by
    intro f g hfg
    rcases optionRel_cases hfg with ⟨rfl, rfl⟩ | ⟨f, g, rfl, rfl, hsame⟩
    · rfl
    · rw [Answer.unlabelled, Answer.unlabelled, Option.map_some, Option.map_some,
        Frame.unlabelled_eq_iff.mpr hsame]
  frames := by
    intro fs gs h
    rw [Answer.unlabelled, Answer.unlabelled,
      map_eq_map_of_forall₂ h fun _ _ => Frame.unlabelled_eq_iff.mpr]
  size := fun _ _ => Frame.SameEntries.size
  index := fun _ => rfl
  groups := fun _ _ hcd => by rw [Chain.SameEntries.visibleGroups hcd]
  visibleFrames := fun _ _ => Chain.SameEntries.visibleFrames
  indexes := fun _ => rfl
  hints := fun _ _ => rfl
  text := by
    intro layout _ c d hcd
    have hsizes : (c.stack.toList.all fun f => f.size ≤ 1) =
        d.stack.toList.all fun f => f.size ≤ 1 :=
      all_eq_all_of_forall₂ hcd.stack fun f g (hfg : f.SameEntries g) => by rw [hfg.size]
    rw [Dialect.text?, Dialect.text?, hsizes, hdocument c d hcd]

/-- Single operations do not see hashers, if the requests about keys and the display do not. -/
theorem sound_relabelled
    (hrequest : ∀ r (c d : Chain ε), c.SameEntries d →
      (dialect.fulfil r c).1 = (dialect.fulfil r d).1 ∧
        (dialect.fulfil r c).2.SameEntries (dialect.fulfil r d).2) :
    (relabelled : Correspondence ε ι ρ ε ι ρ).Sound dialect dialect where
  label_unchosen := fun _ => trivial
  label_withMark := fun _ _ => trivial
  label_frame := fun _ => trivial
  frame_empty := fun _ => Frame.SameEntries.empty _ _
  frame_ofList := by
    rintro h h' entries _ - rfl
    exact Frame.SameEntries.ofList h h' entries
  request := by
    rintro r _ c d rfl hcd
    rcases hrequest r c d hcd with ⟨hanswer, hafter⟩
    exact ⟨outcomeRel_eq_iff.mpr hanswer, hafter⟩
  dropped := False.elim
  equal := fun _ hst hst' =>
    Stack.Related.beq_eq (fun _ _ _ _ => Frame.SameEntries.beq_eq) hst hst'
  look := (relabelled_sights hdocument).look trivial

end Sound

end Correspondence

/-! ## Requests about keys -/

namespace Chain.SameEntries

/-- The operations on frames do not look at the hasher. -/
theorem compatible {R : ε → ε → Prop} (hR : ∀ e, R e e) {permitted : ε → Prop} :
    Frame.Compatible Frame.SameEntries R permitted where
  find? := fun k f g hfg => by
    rw [hfg.find? k]
    exact optionRel_refl hR _
  insert := fun e f g _ hfg => by
    rcases hfg.insert e with ⟨hanswer, hafter⟩
    rw [hanswer]
    exact ⟨optionRel_refl hR _, hafter⟩
  erase? := fun k _ _ hfg => hfg.erase? hR k

/-- Chains of names with the same entries display equally. -/
theorem document_names {κ : Type} [BEq κ] [Display κ] {c d : Names κ} (h : SameEntries c d) :
    c.document = d.document := by
  have hframes : c.stack.toList.map Names.frameDocument = d.stack.toList.map Names.frameDocument :=
    map_eq_map_of_forall₂ h.stack fun f g (hfg : f.entries = g.entries) => by
      rw [Names.frameDocument, Names.frameDocument, hfg]
  rw [Names.document, Names.document, hframes]

/-- Requests to chains of names with the same entries are answered equally, and leave them so. -/
theorem fulfil_names {κ : Type} [BEq κ] {c d : Names κ} (h : SameEntries c d)
    (request : NameRequest κ) :
    (request.fulfil c).1 = (request.fulfil d).1 ∧
      SameEntries (request.fulfil c).2 (request.fulfil d).2 := by
  have hcompatible : Frame.Compatible (Frame.SameEntries : Frame (Member κ) → _ → Prop)
      (Member.Like Eq) fun _ => True := compatible fun m => (rfl : m.key = m.key)
  have hrelated : OutcomeRel (NameAnswer.Like Eq) (request.fulfil c).1 (request.fulfil d).1 ∧
      SameEntries (request.fulfil c).2 (request.fulfil d).2 :=
    NameRequest.fulfil_related hcompatible h
  exact ⟨outcomeRel_eq_iff.mp (hrelated.1.imp fun _ _ => NameAnswer.like_eq), hrelated.2⟩

section Bindings

variable {κ : Type} [BEq κ] [BEq ν] {c d : Bindings κ ν}

/-- Chains of bindings with the same entries display equally. -/
theorem document_bindings [Display κ] [Display ν] (h : SameEntries c d) :
    c.document = d.document := by
  have hframes :
      c.stack.toList.map Bindings.frameDocument = d.stack.toList.map Bindings.frameDocument :=
    map_eq_map_of_forall₂ h.stack fun f g (hfg : f.entries = g.entries) => by
      rw [Bindings.frameDocument, Bindings.frameDocument, hfg]
  rw [Bindings.document, Bindings.document, hframes]

/-- Chains of bindings with the same entries list their keys equally. -/
theorem keyGroups [Ord κ] (h : SameEntries c d) : c.keyGroups = d.keyGroups := by
  rw [Bindings.keyGroups, Bindings.keyGroups, visibleGroups h]

/-- Requests to chains of bindings with the same entries are answered equally, and leave them so. -/
theorem fulfil_bindings [Ord κ] (h : SameEntries c d) (request : BindingRequest κ ν) :
    (request.fulfil c).1 = (request.fulfil d).1 ∧
      SameEntries (request.fulfil c).2 (request.fulfil d).2 := by
  have hself : ∀ b : Binding κ ν, Binding.Like Eq Eq b b := fun _ => ⟨rfl, rfl⟩
  have hcompatible : Binding.Compatible (Frame.SameEntries : Frame (Binding κ ν) → _ → Prop) Eq Eq
      (· ∈ request.written) :=
    { compatible hself with modify? := fun k v _ _ _ hfg => hfg.modify? hself k fun _ => v }
  rcases BindingRequest.fulfil_related hcompatible h h.keyGroups with ⟨hanswer, hafter⟩
  exact ⟨outcomeRel_eq_iff.mp (hanswer.imp fun _ _ => BindingAnswer.like_eq), hafter⟩

end Bindings

end Chain.SameEntries

/-! ## Programs -/

namespace Session

/-- What a run shows apart from hashers: its steps one by one, and the chain at the end. -/
def runUnlabelled [Ord κ] (dialect : Dialect ε ι ρ) (program : List (Command ε ι))
    (s : Session ε) : List (Report ε ρ) × Chain ε :=
  ((run dialect program s).1.map Report.unlabelled, (run dialect program s).2.chain.unlabelled)

/-- Programs of the dialect that differ in their hashers show the same apart from hashers. -/
structure HashersInvisible [Ord κ] (dialect : Dialect ε ι ρ) : Prop where
  /-- A program may start with any hasher and ask for any marks on the way. -/
  fromStart : ∀ (hasher hasher' : Hasher) (init : Start ε) (program program' : List (Command ε ι)),
    Command.unmarkedAll program = Command.unmarkedAll program' →
      runUnlabelled dialect program (start hasher init) =
        runUnlabelled dialect program' (start hasher' init)
  /-- So it may on any session, whatever hashers the frames, copies and popped frame have. -/
  fromSession : ∀ (s t : Session ε) (program program' : List (Command ε ι)),
    s.unlabelled = t.unlabelled → Command.unmarkedAll program = Command.unmarkedAll program' →
      runUnlabelled dialect program s = runUnlabelled dialect program' t

section Invisible

variable [Ord κ] {dialect : Dialect ε ι ρ}

/-- A program shows the same as without marks on the session without labels. -/
theorem runUnlabelled_unmarked
    (h : (Correspondence.relabelled : Correspondence ε ι ρ ε ι ρ).Sound dialect dialect)
    (program : List (Command ε ι)) (s : Session ε) :
    runUnlabelled dialect program s =
      runUnlabelled dialect (Command.unmarkedAll program) s.unlabelled := by
  rcases h.run (Correspondence.matchesAll_unmarkedAll program) (s.related_unlabelled.withLog rfl)
    with ⟨hreports, hlast⟩
  rw [runUnlabelled, runUnlabelled, Correspondence.unlabelled_eq_of_reports hreports,
    Chain.SameEntries.unlabelled_eq hlast.chain]

omit [Ord κ] in
/-- Sessions that start alike with any hashers are equal without them. -/
theorem unlabelled_start (hasher hasher' : Hasher) (init : Start ε) :
    (start hasher init).unlabelled = (start hasher' init).unlabelled := by
  have hroot : ∀ root root' : Frame ε, root.SameEntries root' →
      ∀ label label', (Chain.mk label (.ofRoot root)).SameEntries ⟨label', .ofRoot root'⟩ :=
    fun _ _ hsame _ _ => ⟨trivial, .ofRoot hsame⟩
  have hchain : (init.chain hasher).SameEntries (init.chain hasher') := by
    cases init with
    | unchosen => exact hroot _ _ (Frame.SameEntries.empty _ _) _ _
    | empty => exact hroot _ _ (Frame.SameEntries.empty _ _) _ _
    | seeded entries => exact hroot _ _ (Frame.SameEntries.ofList _ _ entries) _ _
  rw [start, start, unlabelled, unlabelled, hchain.unlabelled_eq]

/-- If the requests do not look at hashers, neither do whole programs. -/
theorem hashersInvisible_of_sound
    (h : (Correspondence.relabelled : Correspondence ε ι ρ ε ι ρ).Sound dialect dialect) :
    HashersInvisible dialect := by
  have hsession : ∀ (s t : Session ε) (program program' : List (Command ε ι)),
      s.unlabelled = t.unlabelled → Command.unmarkedAll program = Command.unmarkedAll program' →
        runUnlabelled dialect program s = runUnlabelled dialect program' t := by
    intro s t program program' hst hprogram
    calc runUnlabelled dialect program s
        = runUnlabelled dialect (Command.unmarkedAll program) s.unlabelled :=
          runUnlabelled_unmarked h program s
      _ = runUnlabelled dialect (Command.unmarkedAll program') t.unlabelled := by
          rw [hst, hprogram]
      _ = runUnlabelled dialect program' t := (runUnlabelled_unmarked h program' t).symm
  exact ⟨fun hasher hasher' init program program' =>
    hsession _ _ program program' (unlabelled_start hasher hasher' init), hsession⟩

end Invisible

/--
Hashers are invisible.  Whatever hasher a program starts with and whatever marks it asks for,
all steps are answered the same, with the same depths, events, faults and frames, except for
the labels of the frames themselves.  This holds for commands at any depth, and neither keys
nor values need to have a lawful equality or order.
-/
theorem hashers_invisible {κ : Type} [BEq κ] [Ord κ] [Display κ] [BEq ν] [Display ν] :
    HashersInvisible (BindingRequest.dialect : Dialect (Binding κ ν) _ _) ∧
      HashersInvisible (NameRequest.dialect : Dialect (Member κ) _ _) := by
  constructor
  · apply hashersInvisible_of_sound
    exact Correspondence.sound_relabelled (fun _ _ => Chain.SameEntries.document_bindings)
      fun request _ _ hcd => Chain.SameEntries.fulfil_bindings hcd request
  · apply hashersInvisible_of_sound
    exact Correspondence.sound_relabelled (fun _ _ => Chain.SameEntries.document_names)
      fun request _ _ hcd => Chain.SameEntries.fulfil_names hcd request

/-- A marked frame goes through a pop and a saved copy, and a step ends in a fault. -/
theorem hashers_invisible_remarked :
    let key := CaseFolded.ofSpelling "A"
    let other := CaseFolded.ofSpelling "b"
    let program (first second : Option UInt64) :
        List (Command (Binding CaseFolded Value) (BindingRequest CaseFolded Value)) :=
      [.pushFrame [⟨key, .int 1⟩] first, .save, .pop, .pushPopped, .equalsSaved 0,
        .equalsOther .unchosen second [.pushFrame [⟨key, .int 1⟩] first], .hashers,
        .scope [.pushFrame [] second, .keyed (.demand other)]]
    let left := start (.marked 5) .empty
    let right := start (.marked 8) .empty
    Command.unmarkedAll (program (some 1) none) = Command.unmarkedAll (program none (some 2)) ∧
      runUnlabelled BindingRequest.dialect (program (some 1) none) left =
        runUnlabelled BindingRequest.dialect (program none (some 2)) right ∧
      (run BindingRequest.dialect (program (some 1) none) left).2.chain.hashers =
        [.marked 5, .marked 1, .marked 5, .marked 5] ∧
      (run BindingRequest.dialect (program none (some 2)) right).2.chain.hashers =
        [.marked 8, .marked 8, .marked 8, .marked 2] := by
  intro key other program left right
  have hprograms : Command.unmarkedAll (program (some 1) none) =
      Command.unmarkedAll (program none (some 2)) := rfl
  exact ⟨hprograms, hashers_invisible.1.fromStart _ _ .empty _ _ hprograms, by decide +kernel,
    by decide +kernel⟩

end Session
end LexicalScope
