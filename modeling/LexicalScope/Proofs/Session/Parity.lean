import LexicalScope.Key.CaseFolded
import LexicalScope.Proofs.Chain.Resolve
import LexicalScope.Proofs.Frame.SameKeys
import LexicalScope.Proofs.Session.Looks
import LexicalScope.Session.BindingRequest
import LexicalScope.Session.NameRequest

/-!
# Names as bindings

A chain of names behaves as a chain of bindings to a value that says nothing.  Every
program for names becomes a program for such bindings if adding a key is replaced by
declaring it.  The two runs have the same depths, hashers and events after every step,
their frames store the same keys, spelled alike, and the answers tell the same.

Main results:

- Theorem {lit}`Chain.SameKeys.fulfil`: a single request and its translation.
- Theorem {lit}`Session.names_as_bindings`: programs of any structure, and what chains that
  store the same keys have in common.
-/

namespace LexicalScope

variable {κ : Type}

/-! ## Requests as requests to bindings -/

/-- The value that says nothing displays as an empty pair of parentheses. -/
instance : Display Unit where
  document _ := .atom "()".toList

/-- The request to a chain of bindings that takes the place of a request to a chain of names. -/
def NameRequest.toBinding : NameRequest κ → BindingRequest κ Unit
  | .add key => .declare key ()
  | .addAt index key => .declareAt index key ()
  | .get key => .get key
  | .has key => .has key
  | .hasLocal key => .hasLocal key
  | .hasAt index key => .hasAt index key
  | .resolve key => .resolve key
  | .delete key => .delete key
  | .deleteLocal key => .deleteLocal key

/-- The start with its keys bound to the value that says nothing. -/
def Start.toBindings : Start (Member κ) → Start (Binding κ Unit) :=
  Start.translate fun entries => entries.map Member.toBinding

/-- The program with its keys bound to the value that says nothing. -/
def Command.toBindings :
    List (Command (Member κ) (NameRequest κ)) →
      List (Command (Binding κ Unit) (BindingRequest κ Unit)) :=
  Command.translateAll (fun entries => entries.map Member.toBinding) fun request =>
    some request.toBinding

/-! ## Answers that tell the same -/

/--
A key is new if its declaration replaced nothing.  A key is found or removed in the one
chain if its value is in the other; why it is not is the same in both.
-/
inductive SameTold : NameAnswer κ → BindingAnswer κ Unit → Prop where
  | added {new : Bool} {old : Option Unit} (h : new = old.isNone) :
      SameTold (.flag new) (.replaced old)
  | addedAt {added : Except Error Bool} {replaced : Except Error (Option Unit)}
      (h : OutcomeRel (fun new old => new = old.isNone) added replaced) :
      SameTold (.added added) (.replacedAt replaced)
  | outcome {found : Except Error κ} {value : Except Error Unit}
      (h : OutcomeRel (fun _ _ => True) found value) : SameTold (.outcome found) (.outcome value)
  | flag (b : Bool) : SameTold (.flag b) (.flag b)
  | index (index : Option Nat) : SameTold (.index index) (.index index)

variable [BEq κ]

/-- Commands that only look at the chains are answered with the same keys in the same places. -/
inductive SameShown :
    Answer (Member κ) (NameAnswer κ) → Answer (Binding κ Unit) (BindingAnswer κ Unit) → Prop where
  | hashers (hashers : List Hasher) : SameShown (.hashers hashers) (.hashers hashers)
  | frame {f : Frame (Member κ)} {g : Frame (Binding κ Unit)} (h : f.SameKeys g) :
      SameShown (.frame f) (.frame g)
  | frameAt {f : Option (Frame (Member κ))} {g : Option (Frame (Binding κ Unit))}
      (h : Option.Rel Frame.SameKeys f g) : SameShown (.frameAt f) (.frameAt g)
  | frames {fs : List (Frame (Member κ))} {gs : List (Frame (Binding κ Unit))}
      (h : List.Forall₂ Frame.SameKeys fs gs) : SameShown (.frames fs) (.frames gs)
  | index (index : Option Nat) : SameShown (.index index) (.index index)
  | groups {names : List (Nat × List (Member κ))} {bindings : List (Nat × List (Binding κ Unit))}
      (h : names.map (fun g => (g.1, g.2.map Member.key)) =
        bindings.map fun g => (g.1, g.2.map Binding.key)) :
      SameShown (.groups names) (.groups bindings)
  | indexes (indexes : List Nat) : SameShown (.indexes indexes) (.indexes indexes)
  | hints (before after : SizeHint) : SameShown (.hints before after) (.hints before after)
  | text {a b : Option String} (h : a.isSome = b.isSome) : SameShown (.text a) (.text b)

/-- The correspondence of programs for names to programs for bindings. -/
def Correspondence.parity :
    Correspondence (Member κ) (NameRequest κ) (NameAnswer κ) (Binding κ Unit)
      (BindingRequest κ Unit) (BindingAnswer κ Unit) where
  label := Eq
  mark := Eq
  frame := Frame.SameKeys
  entries names bindings := bindings = names.map Member.toBinding
  request request request' := request' = request.toBinding
  dropped _ := False
  answer := SameTold
  comparable := True
  look := Command.SameLook
  sight := SameShown

/-! ## Chains that store the same keys -/

/-- A chain has a text if no frame has more than one entry, whatever it would display as. -/
theorem Dialect.isSome_text? {ε ι ρ : Type} [Entry ε κ] (dialect : Dialect ε ι ρ)
    (layout : Document.Layout) (c : Chain ε) :
    (dialect.text? layout c).isSome = c.stack.toList.all fun frame => frame.size ≤ 1 := by
  unfold Dialect.text?
  split
  · rename_i hsizes
    rw [hsizes, Option.isSome_some]
  · rename_i hsizes
    rw [Option.isSome_none, Bool.eq_false_iff.mpr hsizes]

namespace Chain

/-- The chains have the same hasher and depth, and their frames store the same keys. -/
abbrev SameKeys : Names κ → Bindings κ Unit → Prop :=
  Related Eq Frame.SameKeys

namespace SameKeys

variable {c : Names κ} {d : Bindings κ Unit}

/-- Frames with the same keys find entries with the same key. -/
theorem find? (k : κ) (f : Frame (Member κ)) (g : Frame (Binding κ Unit)) (h : f.SameKeys g) :
    Option.Rel SameKey (f.find? k) (g.find? k) :=
  h.find? k

/-- The frames have the same hashers. -/
theorem hashers (h : SameKeys c d) : c.hashers = d.hashers :=
  map_eq_map_of_forall₂ h.stack fun _ _ hfg => hfg.1

/-- The frames store the same keys, in the same spellings and order. -/
theorem storedKeys (h : SameKeys c d) :
    c.stack.toList.map (fun f => f.entries.map Member.key) =
      d.stack.toList.map fun g => g.entries.map Binding.key :=
  map_eq_map_of_forall₂ h.stack fun _ _ hfg => hfg.2

/-- A key resolves to the same index in both chains. -/
theorem resolve (h : SameKeys c d) (k : κ) : c.resolve k = d.resolve k :=
  Related.resolve (find? k) h

/-- The names of each frame are the bindings of its partner without their values. -/
theorem entries_eq (h : SameKeys c d) :
    c.stack.Related (fun f g => f.entries = g.entries.map Binding.toMember) d.stack :=
  List.Forall₂.imp (fun _ _ => Frame.SameKeys.entries_eq) h.stack

/-- The visible names are the keys of the visible bindings, grouped alike. -/
theorem visibleGroups [Ord κ] (h : SameKeys c d) :
    c.visibleGroups.map (fun g => (g.1, g.2.map Member.key)) = d.keyGroups := by
  rw [visibleGroups_image (p := Binding.toMember) (fun _ => rfl) h.entries_eq h.resolve,
    Bindings.keyGroups, List.map_map]
  exact List.map_congr_left fun g _ => by
    simp only [Function.comp_apply, List.map_map]
    rfl

/-- The first visible entries are held by frames with the same indexes. -/
theorem visibleFrames (h : SameKeys c d) (n : Nat) : c.visibleFrames n = d.visibleFrames n :=
  visibleFrames_image (p := Binding.toMember) (fun _ => rfl) h.entries_eq h.resolve n

/-- Stacks of names are equal if and only if the stacks of bindings with the same keys are. -/
theorem beq_eq {s s' : Stack (Frame (Member κ))} {t t' : Stack (Frame (Binding κ Unit))}
    (h : s.Related Frame.SameKeys t) (h' : s'.Related Frame.SameKeys t') :
    (s == s') = (t == t') :=
  Stack.Related.beq_eq (fun _ _ _ _ => Frame.SameKeys.beq_eq) h h'

/-- One chain has a text if and only if the other has one. -/
theorem isSome_text? [Display κ] [Ord κ] (h : SameKeys c d) (layout : Document.Layout) :
    (NameRequest.dialect.text? layout c).isSome =
      (BindingRequest.dialect.text? layout d).isSome := by
  have hsizes : (c.stack.toList.all fun f => f.size ≤ 1) =
      d.stack.toList.all fun g => g.size ≤ 1 :=
    all_eq_all_of_forall₂ h.stack fun f g (hfg : f.SameKeys g) => by rw [hfg.size]
  rw [Dialect.isSome_text?, Dialect.isSome_text?, hsizes]

/-! ## Requests about keys -/

omit [BEq κ] in
/-- An added name is new if and only if declaring it replaces no value. -/
theorem isNone_eq {a : Option (Member κ)} {b : Option (Binding κ Unit)}
    (h : Option.Rel SameKey a b) : a.isNone = (b.map Binding.value).isNone := by
  rcases optionRel_cases h with ⟨rfl, rfl⟩ | ⟨m, b, rfl, rfl, -⟩ <;> rfl

omit [BEq κ] in
/-- Deletions answer alike: a name on the one side, no value on the other, or the same error. -/
theorem outcome {a : Except Error (Member κ)} {b : Except Error (Binding κ Unit)}
    (h : OutcomeRel SameKey a b) :
    SameTold (.outcome (a.map Member.key)) (.outcome (b.map Binding.value)) :=
  .outcome (h.map fun _ _ _ => trivial)

/-- A request to a chain of names and its translation tell the same and go on doing so. -/
theorem fulfil [Ord κ] (h : SameKeys c d) (request : NameRequest κ) :
    OutcomeRel SameTold (request.fulfil c).1 (request.toBinding.fulfil d).1 ∧
      SameKeys (request.fulfil c).2 (request.toBinding.fulfil d).2 := by
  cases request with
  | add key =>
      obtain ⟨hanswer, hafter⟩ := Related.insert (A := SameKey)
        (fun f g (hfg : f.SameKeys g) => hfg.insert ⟨key⟩) h
      exact ⟨.ok (.added (isNone_eq hanswer)), hafter⟩
  | addAt index key =>
      obtain ⟨hanswer, hafter⟩ := Related.insertAt (A := SameKey)
        (fun f g (hfg : f.SameKeys g) => hfg.insert ⟨key⟩) h index
      exact ⟨.ok (.addedAt (hanswer.map fun _ _ => isNone_eq)), hafter⟩
  | get key => exact ⟨.ok (outcome (h.lookup (find? key))), h⟩
  | has key =>
      have hheld := Related.has (find? key) h
      exact ⟨.ok (by simp only [hheld]; exact .flag _), h⟩
  | hasLocal key =>
      have hheld := Related.hasLocal (find? key) h
      exact ⟨.ok (by simp only [hheld]; exact .flag _), h⟩
  | hasAt index key =>
      have hheld := Related.hasAt (find? key) h index
      exact ⟨.ok (by simp only [hheld]; exact .flag _), h⟩
  | resolve key => exact ⟨.ok (by simp only [h.resolve key]; exact .index _), h⟩
  | delete key =>
      obtain ⟨hanswer, hafter⟩ := Related.erase (A := SameKey)
        (fun f g (hfg : f.SameKeys g) => hfg.erase? key) h
      exact ⟨.ok (outcome hanswer), hafter⟩
  | deleteLocal key =>
      obtain ⟨hanswer, hafter⟩ := Related.eraseLocal (A := SameKey)
        (fun f g (hfg : f.SameKeys g) => hfg.erase? key) h
      exact ⟨.ok (outcome hanswer), hafter⟩

/-! ## The stored keys behind the answers -/

/-- A chain of names answers a look-up with the key that the other chain finds stored. -/
theorem get_eq_ok_iff (h : SameKeys c d) (k key : κ) :
    c.get k = .ok key ↔ ∃ i frame b, d.resolve k = some i ∧ d.stack.frame? i = some frame ∧
      frame.find? k = some b ∧ b.key = key := by
  have hlookup : c.get k = .ok key ↔ ∃ b, d.lookup k = .ok b ∧ b.key = key := by
    rw [Names.get]
    rcases outcomeRel_cases (h.lookup (find? k)) with ⟨m, b, hc, hd, hkey⟩ | ⟨e, hc, hd⟩
    · rw [hc, hd]
      simp [Except.map, ← show m.key = b.key from hkey]
    · rw [hc, hd]
      simp [Except.map]
  rw [hlookup]
  simp only [lookup_eq_ok_iff]
  constructor
  · rintro ⟨b, ⟨i, frame, hresolve, hframe, hfind⟩, hkey⟩
    exact ⟨i, frame, b, hresolve, hframe, hfind, hkey⟩
  · rintro ⟨i, frame, b, hresolve, hframe, hfind, hkey⟩
    exact ⟨b, ⟨i, frame, hresolve, hframe, hfind⟩, hkey⟩

/-- Deleting a name from the current frame answers the key that the other chain stores there. -/
theorem deleteLocal_eq_ok_iff (h : SameKeys c d) (k key : κ) :
    (c.deleteLocal k).1 = .ok key ↔ ∃ b, d.stack.top.find? k = some b ∧ b.key = key := by
  have hanswer := (Related.eraseLocal (A := SameKey)
    (fun f g (hfg : f.SameKeys g) => hfg.erase? k) h).1
  simp only [← eraseLocal_fst_eq_ok_iff]
  change (c.eraseLocal k).1.map Member.key = .ok key ↔ _
  rcases outcomeRel_cases hanswer with ⟨m, b, hc, hd, hkey⟩ | ⟨e, hc, hd⟩
  · rw [hc, hd]
    simp [Except.map, ← show m.key = b.key from hkey]
  · rw [hc, hd]
    simp [Except.map]

end SameKeys

/-- What a chain of names and a chain of bindings have in common. -/
structure InStep [Ord κ] (c : Names κ) (d : Bindings κ Unit) : Prop where
  depth : c.depth = d.depth
  label : c.hasher = d.hasher
  hashers : c.hashers = d.hashers
  /-- Every frame stores the same keys, spelled alike. -/
  storedKeys : c.stack.toList.map (fun f => f.entries.map Member.key) =
    d.stack.toList.map fun g => g.entries.map Binding.key
  /-- The visible names are the keys of the visible bindings, in the same groups. -/
  groups : c.visibleGroups.map (fun g => (g.1, g.2.map Member.key)) = d.keyGroups
  /-- A look-up answers the key that is stored in the frame of bindings it resolves to. -/
  get : ∀ k key, c.get k = .ok key ↔ ∃ i frame b, d.resolve k = some i ∧
    d.stack.frame? i = some frame ∧ frame.find? k = some b ∧ b.key = key
  /-- Deleting answers what the look-up would. -/
  delete : ∀ k, (c.delete k).1 = c.get k
  /-- Deleting in the current frame answers the key that is stored in that frame of bindings. -/
  deleteLocal : ∀ k key, (c.deleteLocal k).1 = .ok key ↔
    ∃ b, d.stack.top.find? k = some b ∧ b.key = key

/-- Chains with the same keys are in step. -/
theorem SameKeys.inStep [Ord κ] {c : Names κ} {d : Bindings κ Unit} (h : SameKeys c d) :
    InStep c d where
  depth := Related.depth h
  label := h.label
  hashers := h.hashers
  storedKeys := h.storedKeys
  groups := h.visibleGroups
  get := h.get_eq_ok_iff
  delete := fun k => congrArg (Except.map Member.key) (c.erase_fst k)
  deleteLocal := h.deleteLocal_eq_ok_iff

end Chain

/-! ## Programs -/

namespace Correspondence

variable [Ord κ] [Display κ]

/-- What commands see of chains with the same keys is the same. -/
theorem parity_sights :
    Sights (NameRequest.dialect : Dialect (Member κ) _ _) BindingRequest.dialect (fun _ => True) Eq
      Frame.SameKeys SameShown where
  hashers := by
    intro _ c d hcd
    rw [Chain.SameKeys.hashers hcd]
    exact .hashers _
  frame := fun _ _ => .frame
  frameAt := fun _ _ => .frameAt
  frames := fun _ _ => .frames
  size := fun _ _ => Frame.SameKeys.size
  index := .index
  groups := fun _ _ hcd => .groups (Chain.SameKeys.visibleGroups hcd)
  visibleFrames := fun _ _ hcd n => Chain.SameKeys.visibleFrames hcd n
  indexes := .indexes
  hints := .hints
  text := fun layout _ _ _ hcd => .text (Chain.SameKeys.isSome_text? hcd layout)

/-- Requests to chains with the same keys are answered alike and leave them with the same keys. -/
theorem sound_parity :
    (parity : Correspondence (Member κ) _ _ _ _ _).Sound NameRequest.dialect
      BindingRequest.dialect where
  label_unchosen := by
    rintro h _ rfl
    rfl
  label_withMark := by
    rintro h _ mark _ rfl rfl
    rfl
  label_frame := fun hfg => hfg.1
  frame_empty := by
    rintro h _ rfl
    exact Frame.SameKeys.empty h
  frame_ofList := by
    rintro h _ entries _ rfl rfl
    exact Frame.SameKeys.ofList h entries
  request := by
    rintro request _ c d rfl hcd
    exact Chain.SameKeys.fulfil hcd request
  dropped := False.elim
  equal := fun _ => Chain.SameKeys.beq_eq
  look := parity_sights.look trivial

omit [Ord κ] [Display κ] in
/-- Binding every name to no value translates programs on names into corresponding ones. -/
theorem translates_parity :
    (parity : Correspondence (Member κ) _ _ _ _ _).Translates
      (fun entries => entries.map Member.toBinding) (fun request => some request.toBinding)
      (fun _ => True) True where
  mark := fun _ => rfl
  entries := fun _ => rfl
  kept := by
    intro request request' _ heq
    rw [Option.some.injEq] at heq
    exact ⟨heq.symm, id⟩
  omitted := fun _ _ heq => nomatch heq
  comparable := id
  look := fun _ _ _ => id

omit [Ord κ] [Display κ] in
/-- Every program on names corresponds to its translation. -/
theorem matchesAll_toBindings (program : List (Command (Member κ) (NameRequest κ))) :
    parity.MatchesAll program (Command.toBindings program) :=
  matchesAll_translate translates_parity program
    (Command.allWithin_of_forall (fun _ => trivial) trivial program)

end Correspondence

namespace Session

/--
A program for names and its translation run in parity: step by step they are answered
alike and leave sessions with the same events whose chains store the same keys.  The
same holds for commands at any depth, from any two such sessions; and chains that store
the same keys have everything in common that a program can ask about keys.
-/
theorem names_as_bindings [Ord κ] [Display κ] :
    (∀ (hasher : Hasher) (init : Start (Member κ))
        (program : List (Command (Member κ) (NameRequest κ))),
      Correspondence.parity.Reports program
          (run NameRequest.dialect program (start hasher init)).1
          (run BindingRequest.dialect (Command.toBindings program)
            (start hasher init.toBindings)).1 ∧
        Chain.SameKeys (run NameRequest.dialect program (start hasher init)).2.chain
          (run BindingRequest.dialect (Command.toBindings program)
            (start hasher init.toBindings)).2.chain) ∧
    (∀ body : List (Command (Member κ) (NameRequest κ)),
      Simulates Eq Frame.SameKeys (Correspondence.parity.AnswersAll body)
        (execAll NameRequest.dialect body)
        (execAll BindingRequest.dialect (Command.toBindings body))) ∧
    (∀ (c : Names κ) (d : Bindings κ Unit), c.SameKeys d → c.InStep d) := by
  refine ⟨fun hasher init program => ?_, fun body => ?_, fun c d h => h.inStep⟩
  · have hmatches := Correspondence.matchesAll_toBindings program
    have hchain := Correspondence.sound_parity.related_start
      (Correspondence.starts_translate Correspondence.translates_parity init)
      (rfl : hasher = hasher)
    have hstart : Related Eq Frame.SameKeys (start hasher init) (start hasher init.toBindings) :=
      ⟨rfl, hchain, .nil, .none, rfl⟩
    rcases Correspondence.sound_parity.run hmatches (hstart.withLog rfl) with ⟨hreports, hlast⟩
    exact ⟨hreports, hlast.chain⟩
  · exact Correspondence.sound_parity.execAll (Correspondence.matchesAll_toBindings body)

/-- One key in two spellings, added twice in the root and once in a frame above it. -/
theorem names_as_bindings_respelled :
    let upper := CaseFolded.ofSpelling "KEY"
    let lower := CaseFolded.ofSpelling "key"
    let program : List (Command (Member CaseFolded) (NameRequest CaseFolded)) :=
      [.keyed (.add upper), .pushFrame [⟨lower⟩] none, .scope [.keyed (.addAt 0 lower), .pop],
        .visible]
    let bindings : List (Command (Binding CaseFolded Unit) (BindingRequest CaseFolded Unit)) :=
      [.keyed (.declare upper ()), .pushFrame [⟨lower, ()⟩] none,
        .scope [.keyed (.declareAt 0 lower ()), .pop], .visible]
    let names := run NameRequest.dialect program (start .standard .empty)
    let bound := run BindingRequest.dialect bindings (start .standard .empty)
    Correspondence.parity.Reports program names.1 bound.1 ∧ names.2.chain.InStep bound.2.chain ∧
      bound.2.chain.depth = 2 ∧
      (Names.get names.2.chain lower).toOption.map CaseFolded.spelling = some "key" := by
  intro upper lower program bindings names bound
  rcases names_as_bindings (κ := CaseFolded) with ⟨hprograms, -, hchains⟩
  rcases hprograms .standard .empty program with ⟨hreports, hlast⟩
  exact ⟨hreports, hchains _ _ hlast, by decide +kernel, by decide +kernel⟩

end Session
end LexicalScope
