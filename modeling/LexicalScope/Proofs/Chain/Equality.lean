import LexicalScope.Key.CaseFolded
import LexicalScope.Proofs.Chain.OneEntry
import LexicalScope.Proofs.Frame.Alike
import LexicalScope.Proofs.Session.Effect
import LexicalScope.Rows.Row
import LexicalScope.Session.BindingRequest
import LexicalScope.Session.NameRequest
import LexicalScope.Value

/-!
# What equality of chains means

Two chains are equal if they have equally many frames and if frames with the same index hold the
same under every key.  A frame looks its own entries up in the other one and counts both, and since
no frame holds two entries under equal keys, this sees everything that the other frame holds.

Equality inherits the laws of values.  It is symmetric and transitive, but a chain is equal to
itself, and hence to a copy of itself, only if every value in it is, the covered ones included.

Main results:

- Theorem {lit}`Chain.beq_iff_holdsAlike`: equality index by index and key by key.
- Theorem {lit}`Chain.beq_eq_of_rewritten`: hashers, spelling and order make no difference.
- Theorem {lit}`Chain.beq_self_iff`: which chains are equal to themselves.
- Theorem {lit}`Chain.equality_by_frames`: all of this for chains of bindings and of names, and for
  stacks of rows.
-/

namespace LexicalScope

variable {ε κ ν : Type}

/-! ## Equality of stacks -/

namespace Stack

variable {φ : Type} [BEq φ]

/-- Two stacks are equal if they have the same depth and equal frames at every index. -/
theorem beq_iff_frame? {s t : Stack φ} : (s == t) = true ↔
    s.depth = t.depth ∧ ∀ i, Option.Rel (fun x y => (x == y) = true) (s.frame? i) (t.frame? i) :=
  Related.beq_iff_related.trans Related.iff_frame?

/-- A stack is equal to itself if each of its frames is. -/
theorem beq_self_iff {s : Stack φ} : (s == s) = true ↔ ∀ x ∈ s.toList, (x == x) = true :=
  Related.beq_iff_related.trans List.forall₂_same

instance [PartialEquivBEq φ] : PartialEquivBEq (Stack φ) where
  symm h := by
    rw [Related.beq_iff_related] at h ⊢
    exact h.flip.imp fun _ _ => BEq.symm
  trans h h' := by
    have hframes : ∀ x y z : φ, (x == y) = true → (y == z) = true → (x == z) = true :=
      fun _ _ _ => BEq.trans
    rw [Related.beq_iff_related] at h h' ⊢
    exact h.trans hframes h'

instance [EquivBEq φ] : EquivBEq (Stack φ) where
  rfl := beq_self_iff.mpr fun _ _ => BEq.rfl

end Stack

section Equality

variable [Entry ε κ] [BEq κ] [EquivBEq κ]

/-! ## Equality of frames -/

namespace Frame

variable {f g f' g' : Frame ε}

/-- A frame is equal to itself if each of its entries agrees with itself. -/
theorem beq_self_iff : (f == f) = true ↔ ∀ e ∈ f.entries, Entry.agree e e = true := by
  rw [beq_eq_true_iff]
  constructor
  · rintro ⟨-, hall⟩ e he
    have hheld := hall e he
    rwa [f.find?_key_of_mem he] at hheld
  · intro hall
    refine ⟨rfl, fun e he => ?_⟩
    rw [f.find?_key_of_mem he]
    exact hall e he

/-- Two frames are equal if and only if under every key they hold nothing or entries that agree. -/
theorem beq_iff_find? : (f == g) = true ↔
    ∀ k, Option.Rel (fun a b => Entry.agree a b = true) (f.find? k) (g.find? k) := by
  rw [beq_iff_alike]
  constructor
  · intro h k
    rcases optionRel_cases (h.find? k) with ⟨hf, hg⟩ | ⟨a, b, hf, hg, hab⟩
    · rw [hf, hg]
      exact .none
    · rw [hf, hg]
      exact .some hab.agree
  · intro h
    refine ⟨trivial, fun k => ?_⟩
    rcases optionRel_cases (h k) with ⟨hf, hg⟩ | ⟨a, b, hf, hg, hab⟩
    · rw [hf, hg]
      exact .none
    · -- Both entries have the key that was asked for, so their keys are equal.
      have ha : (Entry.key a == k) = true := key_beq_of_find? hf
      have hb : (Entry.key b == k) = true := key_beq_of_find? hg
      rw [hf, hg]
      exact .some ⟨BEq.trans ha (BEq.symm hb), hab⟩

/-- Frames that are alike have the same equals, if related entries agree with the same ones. -/
theorem beq_eq_of_alike {L : Hasher → Hasher → Prop} {R : ε → ε → Prop}
    (hR : ∀ a a' b b', R a a' → R b b' → Entry.agree a b = Entry.agree a' b')
    (h : Alike L R f g) (h' : Alike L R f' g') : (f == f') = (g == g') := by
  rw [Bool.eq_iff_iff, beq_iff_find?, beq_iff_find?]
  refine forall_congr' fun k => ?_
  rcases optionRel_cases (h.find? k) with ⟨hf, hg⟩ | ⟨a, a', hf, hg, ha⟩
  · rw [hf, hg]
    rcases optionRel_cases (h'.find? k) with ⟨hf', hg'⟩ | ⟨b, b', hf', hg', -⟩
    · rw [hf', hg']
    · rw [hf', hg']
      exact iff_of_false nofun nofun
  · rw [hf, hg]
    rcases optionRel_cases (h'.find? k) with ⟨hf', hg'⟩ | ⟨b, b', hf', hg', hb⟩
    · rw [hf', hg']
      exact iff_of_false nofun nofun
    · rw [hf', hg', Option.rel_some_some, Option.rel_some_some, hR a a' b b' ha hb]

end Frame

/-! ## Equality of chains -/

namespace Chain

variable {c c' d d' : Chain ε}

omit [EquivBEq κ] in
instance [PartialEquivBEq (Frame ε)] : PartialEquivBEq (Chain ε) where
  symm {c d} (h : (c.stack == d.stack) = true) :=
    show (d.stack == c.stack) = true from BEq.symm h
  trans {c d e} (h : (c.stack == d.stack) = true) (h' : (d.stack == e.stack) = true) :=
    show (c.stack == e.stack) = true from BEq.trans h h'

/-- A chain is equal to itself if in each of its frames every entry agrees with itself. -/
theorem beq_self_iff : (c == c) = true ↔
    ∀ frame ∈ c.stack.toList, ∀ e ∈ frame.entries, Entry.agree e e = true := by
  change (c.stack == c.stack) = true ↔ _
  rw [Stack.beq_self_iff]
  exact forall₂_congr fun _ _ => Frame.beq_self_iff

/--
The chains have equally many frames, and for every index and every key either neither frame holds
the key or both hold it with related entries.
-/
structure HoldsAlike (R : ε → ε → Prop) (c d : Chain ε) : Prop where
  depth : c.depth = d.depth
  entries : ∀ i k, Option.Rel R (c.entryAt? i k) (d.entryAt? i k)

/-- Two chains are equal if and only if frames with the same index hold the same under every key. -/
theorem beq_iff_holdsAlike :
    (c == d) = true ↔ HoldsAlike (fun a b => Entry.agree a b = true) c d := by
  change (c.stack == d.stack) = true ↔ _
  rw [Stack.beq_iff_frame?]
  constructor
  · rintro ⟨hdepth, hframes⟩
    refine ⟨hdepth, fun i k => ?_⟩
    rw [entryAt?, entryAt?]
    rcases optionRel_cases (hframes i) with ⟨hc, hd⟩ | ⟨f, g, hc, hd, hfg⟩
    · rw [hc, hd]
      exact .none
    · rw [hc, hd]
      exact Frame.beq_iff_find?.mp hfg k
  · rintro ⟨(hdepth : c.stack.depth = d.stack.depth), hentries⟩
    refine ⟨hdepth, fun i => ?_⟩
    by_cases hi : i < c.stack.depth
    · rcases c.stack.exists_frame? hi with ⟨f, hf⟩
      rcases d.stack.exists_frame? (i := i) (by omega) with ⟨g, hg⟩
      rw [hf, hg]
      refine .some (Frame.beq_iff_find?.mpr fun k => ?_)
      have hheld := hentries i k
      rwa [entryAt?, entryAt?, hf, hg] at hheld
    · have hnone : c.stack.frame? i = none := (c.stack.frame?_eq_none_iff i).mpr (by omega)
      have hnone' : d.stack.frame? i = none :=
        (d.stack.frame?_eq_none_iff i).mpr (by omega)
      rw [hnone, hnone']
      exact .none

/--
Index by index, the frames have the same entries in some order, up to the spelling of keys and up
to what the relation leaves open.
-/
def Rewritten (R : ε → ε → Prop) (c d : Chain ε) : Prop :=
  c.stack.Related
    (fun f g => ∃ entries, f.entries.Perm entries ∧
      List.Forall₂ (Entry.Matched R) entries g.entries)
    d.stack

/-- Chains with the same entries have the same equals, however they are spelled and ordered. -/
theorem beq_eq_of_rewritten {R : ε → ε → Prop}
    (hR : ∀ a a' b b', R a a' → R b b' → Entry.agree a b = Entry.agree a' b')
    (hc : Rewritten R c c') (hd : Rewritten R d d') : (c == d) = (c' == d') := by
  refine Stack.Related.beq_eq ?_ hc hd
  rintro f f' g g' ⟨entries, hperm, hmatched⟩ ⟨entries', hperm', hmatched'⟩
  have hleft : Frame.Alike (fun _ _ => True) R f g := .of_matched trivial hperm hmatched
  have hright : Frame.Alike (fun _ _ => True) R f' g' := .of_matched trivial hperm' hmatched'
  exact Frame.beq_eq_of_alike hR hleft hright

end Chain
end Equality

/-! ## Copies of a chain -/

/-- A chain that was just saved is compared with itself. -/
theorem Session.run_save_compare [BEq κ] [Entry ε κ] [Ord κ] {ι ρ : Type} (dialect : Dialect ε ι ρ)
    (s : Session ε) :
    (run dialect [.save, .equalsSaved s.saved.size, .stackEqualsSaved s.saved.size] s).1.map
        (fun report => report.answer) =
      [.ok (.number s.saved.size), .ok (.flag (s.chain == s.chain)),
        .ok (.flag (s.chain == s.chain))] := by
  have hcopy : (s.saved.push s.chain)[s.saved.size]? = some s.chain := by
    rw [Array.getElem?_push_size]
  simp only [run, step, exec_save, exec_equalsSaved, exec_stackEqualsSaved, hcopy]
  rfl

/-! ## Bindings, names and rows -/

namespace Bindings

variable [BEq κ]

/-- No value that some frame holds, covered or not, is or contains {lit}`nan`. -/
def NanFree (c : Bindings κ Value) : Prop :=
  ∀ frame ∈ c.stack.toList, ∀ b ∈ frame.entries, b.value.NanFree

/-- What equality of chains of bindings means, and which laws it has. -/
structure EqualityLaws (κ : Type) [BEq κ] [Ord κ] [Display κ] : Prop where
  /-- Frames with the same index hold the same keys, and these with equal values. -/
  iff_frames : ∀ c d : Bindings κ Value,
    (c == d) = true ↔ Chain.HoldsAlike (fun a b => (a.value == b.value) = true) c d
  /-- Hashers, the spelling of keys and the order of entries make no difference. -/
  rewritten : ∀ c c' d d' : Bindings κ Value,
    Chain.Rewritten (fun a a' => a.value = a'.value) c c' →
    Chain.Rewritten (fun b b' => b.value = b'.value) d d' → (c == d) = (c' == d')
  symm : ∀ c d : Bindings κ Value, (c == d) = true → (d == c) = true
  trans : ∀ c d e : Bindings κ Value, (c == d) = true → (d == e) = true → (c == e) = true
  self_iff : ∀ c : Bindings κ Value, (c == c) = true ↔ c.NanFree
  /-- A session whose chain was just saved says whether the chain is equal to the copy. -/
  copy : ∀ s : Session (Binding κ Value), ∃ same : Bool,
    (Session.run BindingRequest.dialect
        [.save, .equalsSaved s.saved.size, .stackEqualsSaved s.saved.size] s).1.map
          (fun report => report.answer) =
      [.ok (.number s.saved.size), .ok (.flag same), .ok (.flag same)] ∧
    (same = true ↔ NanFree s.chain)

end Bindings

/-- What equality of chains of names means: it is an equivalence, and it sees just the keys. -/
structure Names.EqualityLaws (κ : Type) [BEq κ] : Prop extends EquivBEq (Names κ) where
  iff_frames : ∀ c d : Names κ,
    (c == d) = true ↔ c.depth = d.depth ∧ ∀ i k, c.hasAt i k = d.hasAt i k

/-- What equality of stacks of rows means: it is an equivalence, and it sees just the integers. -/
structure Rows.EqualityLaws : Prop extends EquivBEq (Stack Row) where
  iff_frames : ∀ s t : Stack Row, (s == t) = true ↔
    s.depth = t.depth ∧ ∀ i, (s.frame? i).map Row.toList = (t.frame? i).map Row.toList

section Laws

variable [BEq κ] [EquivBEq κ]

/-- The laws hold for chains of bindings. -/
theorem Bindings.equalityLaws [Ord κ] [Display κ] : EqualityLaws κ := by
  have hself : ∀ c : Bindings κ Value, (c == c) = true ↔ NanFree c := by
    intro c
    rw [Chain.beq_self_iff]
    exact forall₂_congr fun _ _ => forall₂_congr fun b _ => b.value.beq_self_iff
  exact {
    iff_frames := fun c d => Chain.beq_iff_holdsAlike
    rewritten := by
      intro c c' d d' hc hd
      refine Chain.beq_eq_of_rewritten (fun a a' b b' ha hb => ?_) hc hd
      change (a.value == b.value) = (a'.value == b'.value)
      rw [ha, hb]
    symm := fun c d => BEq.symm
    trans := fun c d e => BEq.trans
    self_iff := hself
    copy := fun s => ⟨_, s.run_save_compare _, hself s.chain⟩ }

/-- The laws hold for chains of names. -/
theorem Names.equalityLaws : EqualityLaws κ where
  rfl := Chain.beq_self_iff.mpr fun _ _ _ _ => rfl
  symm := BEq.symm
  trans := BEq.trans
  iff_frames := by
    intro c d
    have hheld : ∀ i k, Option.Rel (fun a b : Member κ => Entry.agree a b = true)
        (c.entryAt? i k) (d.entryAt? i k) ↔ c.hasAt i k = d.hasAt i k := by
      intro i k
      rw [← Chain.isSome_entryAt?, ← Chain.isSome_entryAt?]
      constructor
      · exact optionRel_isSome
      · intro h
        cases hc : c.entryAt? i k <;> cases hd : d.entryAt? i k <;> rw [hc, hd] at h
        · exact .none
        · cases h
        · cases h
        · exact .some rfl
    rw [Chain.beq_iff_holdsAlike]
    constructor
    · rintro ⟨hdepth, hentries⟩
      exact ⟨hdepth, fun i k => (hheld i k).mp (hentries i k)⟩
    · rintro ⟨hdepth, hentries⟩
      exact ⟨hdepth, fun i k => (hheld i k).mpr (hentries i k)⟩

/-- The laws hold for stacks of rows. -/
theorem Rows.equalityLaws : EqualityLaws where
  rfl := BEq.rfl
  symm := BEq.symm
  trans := BEq.trans
  iff_frames := by
    intro s t
    have hinj : Function.Injective Row.toList := fun _ _ => Row.toList_inj.mp
    rw [Stack.beq_iff_frame?]
    refine and_congr_right' (forall_congr' fun i => ?_)
    simp only [beq_iff_eq]
    rw [optionRel_eq_iff, (Option.map_injective hinj).eq_iff]

/--
Two chains are equal if and only if they have the same depth and frames with the same index hold
the same keys, with equal values.  Hashers, the spelling of keys and the order of entries make no
difference.  Equality is symmetric and transitive, and a chain is equal to itself, or to a copy of
itself, if and only if {lit}`nan` occurs in no value of any frame.  For chains of names and for
stacks of rows, equality is an equivalence.
-/
theorem Chain.equality_by_frames [Ord κ] [Display κ] :
    Bindings.EqualityLaws κ ∧ Names.EqualityLaws κ ∧ Rows.EqualityLaws :=
  ⟨Bindings.equalityLaws, Names.equalityLaws, Rows.equalityLaws⟩

end Laws

/-- A chain with a covered {lit}`nan`, and two equal chains that are written differently. -/
theorem Chain.equality_by_frames_covered :
    let upper := CaseFolded.ofSpelling "SUM"
    let lower := CaseFolded.ofSpelling "sum"
    let other := CaseFolded.ofSpelling "x"
    let c : Bindings CaseFolded Value :=
      (Chain.ofRoot (.ofList .standard [⟨upper, .list [.int 1, .list [.nan]]⟩])).pushFrame
        (.ofList .standard [⟨lower, .int 2⟩])
    let d : Bindings CaseFolded Value :=
      (Chain.ofRoot (.ofList .standard [⟨upper, .list [.null]⟩, ⟨other, .null⟩])).push
    let d' : Bindings CaseFolded Value :=
      (Chain.ofRoot (.ofList (.marked 3) [⟨other, .null⟩, ⟨lower, .list [.null]⟩])).push
    Bindings.EqualityLaws CaseFolded ∧ (c == c) = false ∧ ¬ Bindings.NanFree c ∧
      ((c.get upper).toOption.any fun v => v == .int 2) = true ∧ (d == d') = true ∧
      (d' == d) = true ∧ Bindings.NanFree d ∧ (d == c) = false := by
  intro upper lower other
  -- The folded spellings are computed here, once, and not again in each comparison of keys.
  have hupper : upper = ⟨"SUM", "sum", by decide +kernel⟩ := CaseFolded.spelling_inj.mp rfl
  have hlower : lower = ⟨"sum", "sum", by decide +kernel⟩ := CaseFolded.spelling_inj.mp rfl
  have hother : other = ⟨"x", "x", by decide +kernel⟩ := CaseFolded.spelling_inj.mp rfl
  clear_value upper lower other
  subst hupper hlower hother
  intro c d d'
  have laws : Bindings.EqualityLaws CaseFolded := Chain.equality_by_frames.1
  have hnan : (c == c) = false := by decide +kernel
  have hequal : (d == d') = true := by decide +kernel
  have hfree : Bindings.NanFree d :=
    (laws.self_iff d).mp (laws.trans d d' d hequal (laws.symm d d' hequal))
  have hcovered : ¬ Bindings.NanFree c := fun h =>
    Bool.false_ne_true (hnan.symm.trans ((laws.self_iff c).mpr h))
  exact ⟨laws, hnan, hcovered, by decide +kernel, hequal, laws.symm d d' hequal, hfree,
    by decide +kernel⟩

end LexicalScope
