import LexicalScope.Key.CaseFolded
import LexicalScope.Proofs.Chain.Alike
import LexicalScope.Proofs.Session.Everywhere
import LexicalScope.Proofs.Session.Looks
import LexicalScope.Proofs.Visible.Groups
import LexicalScope.Value

/-!
# Programs on equal chains

Equality of chains does not see the hashers, the spelling of keys and the order in which
entries came in.  A program does not see them either: on equal chains it runs alike, and it
leaves equal chains.  Only the hashers themselves and the displayed text tell equal chains
apart, and a written value must be equal to itself, since otherwise not even the chain would
be equal to itself afterwards.

Main results:

- Theorem {lit}`Correspondence.sound_equality`: single operations on sessions whose chains are
  equal.
- Theorem {lit}`Session.equal_chains_run`: whole programs, for chains of bindings and for chains
  of names.
-/

namespace LexicalScope

variable {ε ι ρ κ ν : Type}

/-! ## What a program may do -/

/--
The command writes only entries that hold the same as themselves, its requests about keys
are permitted, and it asks neither for hashers nor for a text.
-/
def Command.SeesEqual [Entry ε κ] (permitted : ι → Prop) : Command ε ι → Prop
  | .keyed request => permitted request
  | .pushFrame entries _ => ∀ e ∈ entries, Entry.agree e e = true
  | .equalsOther (.seeded entries) _ _ => ∀ e ∈ entries, Entry.agree e e = true
  | .hashers | .display _ => False
  | _ => True

/-- The values that the request writes are equal to themselves. -/
def BindingRequest.WritesSelfEqual [BEq ν] (request : BindingRequest κ ν) : Prop :=
  ∀ v ∈ request.written, (v == v) = true

/-! ## Answers that show the same -/

section Generic

variable [Entry ε κ] [BEq κ]

/-- The answers show equal frames, the same indexes, and equal entries in the same places. -/
inductive EqualShown : Answer ε ρ → Answer ε ρ → Prop where
  | frame {f g : Frame ε} (h : (f == g) = true) : EqualShown (.frame f) (.frame g)
  | frameAt {f g : Option (Frame ε)} (h : Option.Rel (fun f g => (f == g) = true) f g) :
      EqualShown (.frameAt f) (.frameAt g)
  | frames {fs gs : List (Frame ε)} (h : List.Forall₂ (fun f g => (f == g) = true) fs gs) :
      EqualShown (.frames fs) (.frames gs)
  | index (index : Option Nat) : EqualShown (.index index) (.index index)
  | groups {gs hs : List (Nat × List ε)} (h : SameGroups Entry.Equal gs hs) :
      EqualShown (.groups gs) (.groups hs)
  | indexes (indexes : List Nat) : EqualShown (.indexes indexes) (.indexes indexes)
  | hints (before after : SizeHint) : EqualShown (.hints before after) (.hints before after)

namespace Correspondence

/-- The correspondence of a program to itself, on sessions whose chains are equal. -/
def equality (permitted : ι → Prop) (answer : ρ → ρ → Prop) : Correspondence ε ι ρ ε ι ρ where
  label _ _ := True
  mark := Eq
  frame f g := (f == g) = true
  entries es es' := es = es' ∧ ∀ e ∈ es, Entry.agree e e = true
  request r r' := r = r' ∧ permitted r
  dropped _ := False
  answer := answer
  comparable := True
  look command command' := command = command' ∧ command.SeesEqual permitted ∧
    Command.SameLook command command
  sight := EqualShown

/-- Commands that write permitted values and ask for no hashers or texts are accepted. -/
theorem accepts_equality (permitted : ι → Prop) (answer : ρ → ρ → Prop) :
    (equality permitted answer : Correspondence ε ι ρ ε ι ρ).Accepts
      (Command.SeesEqual permitted) where
  mark := fun _ => rfl
  comparable := trivial
  request := fun hr => ⟨⟨rfl, hr⟩, id⟩
  entries := fun hes => ⟨rfl, hes⟩
  start := by
    intro start mark body hstart
    cases start with
    | unchosen => exact .unchosen
    | empty => exact .empty
    | seeded entries => exact .seeded ⟨rfl, hstart⟩
  look := fun hp hlook => ⟨rfl, hp, hlook⟩

variable [EquivBEq κ]

/-- Equal frames are those that are alike. -/
theorem frame_equality (permitted : ι → Prop) (answer : ρ → ρ → Prop) :
    (equality permitted answer : Correspondence ε ι ρ ε ι ρ).frame =
      Frame.Alike (fun _ _ => True) Entry.Equal := by
  funext f g
  exact propext Frame.beq_iff_alike

section Sound

variable [Ord κ] [Std.TransOrd κ] [Std.LawfulBEqOrd κ] [PartialEquivBEq (Frame ε)]
  {dialect : Dialect ε ι ρ} {permitted : ι → Prop} {answer : ρ → ρ → Prop}

omit [PartialEquivBEq (Frame ε)] in
/-- What commands see of equal chains is equal. -/
theorem equality_sights :
    Sights dialect dialect (Command.SeesEqual permitted) (fun _ _ => True)
      (fun f g => (f == g) = true) EqualShown := by
  have halike : ∀ {c d : Chain ε},
      Chain.Related (fun _ _ => True) (fun f g => (f == g) = true) c d →
        Chain.Related (fun _ _ => True) (Frame.Alike (fun _ _ => True) Entry.Equal) c d := by
    intro c d hcd
    exact ⟨trivial, List.Forall₂.imp (fun _ _ => Frame.beq_iff_alike.mp) hcd.stack⟩
  exact {
    hashers := False.elim
    frame := fun _ _ => .frame
    frameAt := fun _ _ => .frameAt
    frames := fun _ _ => .frames
    size := fun _ _ hfg => (Frame.beq_iff_alike.mp hfg).size
    index := .index
    groups := fun _ _ hcd =>
      .groups ((Chain.visibleGroups_alike (halike hcd)).imp fun _ _ hab => hab.related)
    visibleFrames := fun _ _ hcd n => Chain.visibleFrames_alike (halike hcd) n
    indexes := .indexes
    hints := .hints
    text := fun _ => False.elim }

/-- Single operations do the same to sessions whose chains are equal, if the requests do. -/
theorem sound_equality (hreplaces : Entry.Replaces (Entry.Equal : ε → ε → Prop))
    (hrequest : ∀ r (c d : Chain ε), permitted r →
      Chain.Related (fun _ _ => True) (Frame.Alike (fun _ _ => True) Entry.Equal) c d →
        OutcomeRel answer (dialect.fulfil r c).1 (dialect.fulfil r d).1 ∧
          Chain.Related (fun _ _ => True) (Frame.Alike (fun _ _ => True) Entry.Equal)
            (dialect.fulfil r c).2 (dialect.fulfil r d).2) :
    (equality permitted answer : Correspondence ε ι ρ ε ι ρ).Sound dialect dialect where
  label_unchosen := fun _ => trivial
  label_withMark := fun _ _ => trivial
  label_frame := fun _ => trivial
  frame_empty := fun _ => Frame.beq_iff_alike.mpr (.empty trivial)
  frame_ofList := by
    rintro h h' entries _ - ⟨rfl, hself⟩
    apply Frame.beq_iff_alike.mpr
    refine .ofList hreplaces trivial (List.forall₂_same.mpr fun e he => ?_)
    exact ⟨BEq.rfl, BEq.rfl, hself e he⟩
  request := by
    rintro r _ c d ⟨rfl, hpermitted⟩ hcd
    rw [frame_equality] at hcd ⊢
    exact hrequest r c d hpermitted hcd
  dropped := False.elim
  equal := by
    intro s t s' t' _ hst hst'
    refine Stack.Related.beq_eq (fun f f' g g' hfg hfg' => ?_) hst hst'
    rw [BEq.congr_left (show (f == g) = true from hfg),
      BEq.congr_right (show (f' == g') = true from hfg')]
  look := by
    rintro command _ ⟨rfl, hpermitted, hlook⟩
    exact equality_sights.look hpermitted hlook

end Sound

end Correspondence

end Generic

/-! ## Bindings and names -/

section Dialects

variable [BEq κ] [EquivBEq κ] [Ord κ] [Std.TransOrd κ] [Std.LawfulBEqOrd κ] [Display κ]

/-- What equal chains of bindings answer: equal values, groups of equal keys, and the rest alike. -/
abbrev BindingAnswer.Equal [BEq ν] : BindingAnswer κ ν → BindingAnswer κ ν → Prop :=
  BindingAnswer.Like (fun v w => (v == w) = true) (SameGroups fun k k' => (k == k') = true)

/-- What equal chains of names answer: equal keys, and the rest alike. -/
abbrev NameAnswer.Equal : NameAnswer κ → NameAnswer κ → Prop :=
  NameAnswer.Like fun k k' => (k == k') = true

namespace Correspondence

/-- Programs for bindings that write values equal to themselves, on equal chains. -/
abbrev equalBindings [BEq ν] :
    Correspondence (Binding κ ν) (BindingRequest κ ν) (BindingAnswer κ ν) (Binding κ ν)
      (BindingRequest κ ν) (BindingAnswer κ ν) :=
  equality BindingRequest.WritesSelfEqual BindingAnswer.Equal

/-- Programs for names, on equal chains. -/
abbrev equalNames :
    Correspondence (Member κ) (NameRequest κ) (NameAnswer κ) (Member κ) (NameRequest κ)
      (NameAnswer κ) :=
  equality (fun _ => True) NameAnswer.Equal

/-- Requests to equal chains of bindings are answered equally and leave them equal. -/
theorem sound_equalBindings [BEq ν] [PartialEquivBEq ν] [Display ν] :
    (equalBindings : Correspondence (Binding κ ν) _ _ _ _ _).Sound BindingRequest.dialect
      BindingRequest.dialect := by
  apply sound_equality
  · rw [Binding.equal_eq_like]
    exact Binding.replaces_like
  · intro request c d hwritten hcd
    have hgroups := Chain.keyGroups_alike hcd
    rw [Binding.equal_eq_like] at hcd ⊢
    exact BindingRequest.fulfil_alike (A := fun v w => (v == w) = true) (fun _ => BEq.rfl) hwritten
      hcd hgroups

/-- Requests to equal chains of names are answered equally and leave them equal. -/
theorem sound_equalNames :
    (equalNames : Correspondence (Member κ) _ _ _ _ _).Sound NameRequest.dialect
      NameRequest.dialect := by
  apply sound_equality
  · rw [Member.equal_eq_like]
    exact Member.replaces_like
  · intro request c d _ hcd
    rw [Member.equal_eq_like] at hcd ⊢
    exact NameRequest.fulfil_alike (fun _ => BEq.rfl) hcd

end Correspondence

end Dialects

/-! ## Programs -/

namespace Session

/-- The session with a given chain in which nothing has happened yet. -/
def onChain [Entry ε κ] [BEq κ] (hasher : Hasher) (c : Chain ε) : Session ε :=
  ⟨hasher, c, #[], none, #[]⟩

/-- Programs that do as permitted do not tell equal chains apart. -/
structure Congruence [Entry ε κ] [BEq κ] [Ord κ] (dialect : Dialect ε ι ρ) (permitted : ι → Prop)
    (answer : ρ → ρ → Prop) : Prop where
  /-- A program runs alike on equal chains, step by step, and leaves equal chains. -/
  run : ∀ (hasher hasher' : Hasher) (c d : Chain ε) (program : List (Command ε ι)),
    (c == d) = true → Command.AllEverywhere (Command.SeesEqual permitted) program →
      (Correspondence.equality permitted answer).Reports program
          (run dialect program (onChain hasher c)).1 (run dialect program (onChain hasher' d)).1 ∧
        ((run dialect program (onChain hasher c)).2.chain ==
          (run dialect program (onChain hasher' d)).2.chain) = true
  /-- So do the commands within a step, as long as none of them is a fault, and then both are. -/
  body : ∀ body : List (Command ε ι), Command.AllEverywhere (Command.SeesEqual permitted) body →
    Simulates (fun _ _ => True) (fun f g => (f == g) = true)
      ((Correspondence.equality permitted answer).AnswersAll body) (execAll dialect body)
      (execAll dialect body)

/-- If all requests respect equality, so do whole programs. -/
theorem congruence_of_sound [Entry ε κ] [BEq κ] [Ord κ] {dialect : Dialect ε ι ρ}
    {permitted : ι → Prop} {answer : ρ → ρ → Prop}
    (h : (Correspondence.equality permitted answer).Sound dialect dialect) :
    Congruence dialect permitted answer where
  run := by
    intro hasher hasher' c d program hcd hprogram
    have hmatches := Correspondence.matchesAll_self
      (Correspondence.accepts_equality permitted answer) program hprogram
    have hstart : Related (fun _ _ => True) (fun f g => (f == g) = true)
        (onChain hasher c) (onChain hasher' d) :=
      ⟨trivial, Chain.Related.beq_iff_related.mp hcd, .nil, .none, rfl⟩
    rcases h.run hmatches (hstart.withLog rfl) with ⟨hreports, hlast⟩
    exact ⟨hreports, Chain.Related.beq_iff_related.mpr hlast.chain⟩
  body := fun body hbody => h.execAll
    (Correspondence.matchesAll_self (Correspondence.accepts_equality permitted answer) body hbody)

/--
Equality of chains is a congruence.  Whatever hashers two equal chains have and however their
keys are spelled, a program that asks neither for hashers nor for a text and that writes no
value that differs from itself is answered alike, with the same depths, events and faults,
and it leaves equal chains.
-/
theorem equal_chains_run [BEq κ] [EquivBEq κ] [Ord κ] [Std.TransOrd κ] [Std.LawfulBEqOrd κ]
    [Display κ] [BEq ν] [PartialEquivBEq ν] [Display ν] :
    Congruence (BindingRequest.dialect : Dialect (Binding κ ν) _ _) BindingRequest.WritesSelfEqual
        BindingAnswer.Equal ∧
      Congruence (NameRequest.dialect : Dialect (Member κ) _ _) (fun _ => True) NameAnswer.Equal :=
  ⟨congruence_of_sound Correspondence.sound_equalBindings,
    congruence_of_sound Correspondence.sound_equalNames⟩

/-- Two equal chains with other hashers, another order of entries and other spellings. -/
theorem equal_chains_run_respelled :
    let upper := CaseFolded.ofSpelling "A"
    let lower := CaseFolded.ofSpelling "a"
    let other := CaseFolded.ofSpelling "b"
    let c : Bindings CaseFolded Value :=
      (Chain.ofRoot (.ofList .standard [⟨upper, .int 1⟩, ⟨other, .null⟩])).push
    let d : Bindings CaseFolded Value :=
      (Chain.ofRoot (.ofList (.marked 7) [⟨other, .null⟩, ⟨lower, .int 1⟩])).push
    let program : List (Command (Binding CaseFolded Value) (BindingRequest CaseFolded Value)) :=
      [.save, .scope [.keyed (.assign upper (.list [.null])), .pop, .pop], .visible, .equalsSaved 0,
        .equalsOther (.seeded [⟨lower, .int 2⟩]) (some 3) [.push]]
    let left := run BindingRequest.dialect program (onChain .standard c)
    let right := run BindingRequest.dialect program (onChain (.marked 7) d)
    (c == d) = true ∧ (c.hasher == d.hasher) = false ∧
      Correspondence.equalBindings.Reports program left.1 right.1 ∧
      (left.2.chain == right.2.chain) = true ∧ left.2.chain.depth = 1 := by
  intro upper lower other c d program
  have hequal : (c == d) = true := by decide +kernel
  have hprogram : Command.AllEverywhere (Command.SeesEqual BindingRequest.WritesSelfEqual)
      program := by
    simp only [program, Command.AllEverywhere, Command.Everywhere, Command.SeesEqual,
      BindingRequest.WritesSelfEqual, BindingRequest.written]
    decide
  rcases equal_chains_run.1.run .standard (.marked 7) c d program hequal hprogram with
    ⟨hreports, hlast⟩
  exact ⟨hequal, by decide +kernel, hreports, hlast, by decide +kernel⟩

end Session
end LexicalScope
