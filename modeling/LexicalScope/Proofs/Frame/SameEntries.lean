import LexicalScope.Chain.Bindings
import LexicalScope.Proofs.Stack.Related

/-!
# Frames without their hashers

What a frame holds, finds and answers depends on its entries only.  Two frames with the
same entries in the same order differ at most in their hashers, and they go on doing so
whatever is done to both, since no operation on entries reads or replaces a hasher.  This
holds for all types of keys, whether or not their equality is lawful.

Main results:

- Theorem {lit}`Frame.unlabelled_eq_iff`: frames have the same entries if and only if they are
  the same up to hashers.
- Theorems {lit}`Frame.SameEntries.insert`, {lit}`Frame.SameEntries.erase?` and
  {lit}`Frame.SameEntries.modify?`: what operations do to frames with the same entries.
- Theorem {lit}`Frame.SameEntries.beq_eq`: equality of frames sees the entries only.
-/

namespace LexicalScope

variable {ε κ : Type} [Entry ε κ] [BEq κ]

namespace Frame

/-- The frame as if it had been made with the standard hasher. -/
def unlabelled (f : Frame ε) : Frame ε :=
  { f with hasher := .standard }

/-- The frames have the same entries in the same order, whatever hashers they have. -/
def SameEntries (f g : Frame ε) : Prop :=
  f.entries = g.entries

/-- Without their hashers two frames are equal if and only if they have the same entries. -/
theorem unlabelled_eq_iff {f g : Frame ε} : f.unlabelled = g.unlabelled ↔ f.SameEntries g := by
  constructor
  · intro h
    have hentries : f.unlabelled.entries = g.unlabelled.entries := congrArg Frame.entries h
    exact hentries
  · rcases f with ⟨hasher, entries, distinct⟩
    rcases g with ⟨hasher', entries', distinct'⟩
    rintro (rfl : entries = entries')
    rfl

/-- A frame has the same entries without its hasher. -/
theorem sameEntries_unlabelled (f : Frame ε) : f.SameEntries f.unlabelled :=
  rfl

namespace SameEntries

variable {f f' g g' : Frame ε}

/-- Empty frames have the same entries, whatever their hashers. -/
theorem empty (hasher hasher' : Hasher) :
    SameEntries (.empty hasher : Frame ε) (.empty hasher') :=
  rfl

/-- Frames with the same entries have equally many. -/
theorem size (h : SameEntries f g) : f.size = g.size :=
  congrArg List.length h

/-- Frames with the same entries find the same. -/
theorem find? (h : SameEntries f g) (k : κ) : f.find? k = g.find? k :=
  congrArg (List.find? fun stored => Entry.key stored == k) h

/-- Inserting the same entry answers the same, and leaves the frames with the same entries. -/
theorem insert (h : SameEntries f g) (new : ε) :
    (f.insert new).1 = (g.insert new).1 ∧ SameEntries (f.insert new).2 (g.insert new).2 :=
  ⟨h.find? (Entry.key new), congrArg (Entry.upsert new) h⟩

/-- Erasing the same key answers the same, and leaves the frames with the same entries. -/
theorem erase? {R : ε → ε → Prop} (hR : ∀ e, R e e) (h : SameEntries f g) (k : κ) :
    Option.Rel (fun a b => R a.1 b.1 ∧ SameEntries a.2 b.2) (f.erase? k) (g.erase? k) := by
  unfold Frame.erase?
  rw [h.find? k]
  cases g.find? k with
  | none => exact .none
  | some held =>
      exact .some ⟨hR held, congrArg (List.eraseP fun stored => Entry.key stored == k) h⟩

/-- Frames that are made of the same list have the same entries, whatever their hashers. -/
theorem ofList (hasher hasher' : Hasher) (entries : List ε) :
    SameEntries (.ofList hasher entries) (.ofList hasher' entries) := by
  have hinsert : ∀ f g : Frame ε, SameEntries f g → ∀ new new', new = new' →
      SameEntries (f.insert new).2 (g.insert new').2 := by
    rintro f g h new _ rfl
    exact (h.insert new).2
  exact List.rel_foldl hinsert (empty hasher hasher') (List.forall₂_refl entries)

/-- Whether frames are equal does not depend on their hashers. -/
theorem beq_eq (h : SameEntries f g) (h' : SameEntries f' g') : (f == f') = (g == g') := by
  have hholds : (fun e => (f'.find? (Entry.key e)).any (Entry.agree e)) =
      fun e => (g'.find? (Entry.key e)).any (Entry.agree e) := by
    funext e
    rw [h'.find?]
  change (f.size == f'.size &&
      f.entries.all fun e => (f'.find? (Entry.key e)).any (Entry.agree e)) =
    (g.size == g'.size && g.entries.all fun e => (g'.find? (Entry.key e)).any (Entry.agree e))
  rw [hholds, h.size, h'.size, show f.entries = g.entries from h]

/-- Changing the value of the same key leaves the frames with the same entries. -/
theorem modify? {κ ν : Type} [BEq κ] [BEq ν] {R : Binding κ ν → Binding κ ν → Prop}
    (hR : ∀ b, R b b) {f g : Frame (Binding κ ν)} (h : SameEntries f g) (k : κ) (change : ν → ν) :
    Option.Rel (fun a b => R a.1 b.1 ∧ SameEntries a.2 b.2) (f.modify? k change)
      (g.modify? k change) := by
  unfold Frame.modify?
  rw [h.find? k]
  cases g.find? k with
  | none => exact .none
  | some old => exact .some ⟨hR old, (h.insert ⟨old.key, change old.value⟩).2⟩

end SameEntries
end Frame

end LexicalScope
