import LexicalScope.Chain.Bindings
import LexicalScope.Proofs.Chain.Resolve
import LexicalScope.Proofs.Stack.Related

/-!
# Frames that agree on a key

Two frames with the same hasher may hold different entries and still answer one key
alike.  An operation on that key, under whatever spelling, answers alike on both and
leaves them so; an operation on another key on one of the frames does not disturb it.

Main results:

- Theorems {lit}`Frame.AgreesOn.insert` and {lit}`Frame.AgreesOn.insert_left`: inserting under
  the key, and under another key.
- Theorems {lit}`Frame.AgreesOn.erase?` and {lit}`Frame.AgreesOn.erase?_left`: erasing.
- Theorem {lit}`Frame.AgreesOn.ofList_filter`: a frame agrees on a key with the frame that is
  made of the entries under that key alone.
-/

namespace LexicalScope
namespace Frame

variable {ε κ : Type} [Entry ε κ] [BEq κ]

/-! ## Erasing and the other keys -/

/-- What is left after the entry of a key was erased does not hold the key. -/
theorem find?_of_erase? [EquivBEq κ] {f f' : Frame ε} {k : κ} {e : ε}
    (h : f.erase? k = some (e, f')) : f'.find? k = none := by
  simp only [erase?, Option.map_eq_some_iff, Prod.mk.injEq] at h
  rcases h with ⟨held, -, -, rfl⟩
  have hdistinct := f.distinct
  simp only [find?]
  generalize f.entries = entries at hdistinct
  induction entries with
  | nil => rfl
  | cons first rest ih =>
      rcases List.pairwise_cons.mp hdistinct with ⟨hfirst, hrest⟩
      cases hk : Entry.key first == k with
      | false => simpa [List.eraseP_cons, hk] using ih hrest
      | true =>
          simp only [List.eraseP_cons, hk, List.find?_eq_none, Bool.not_eq_true]
          intro other hother
          rw [← BEq.congr_right hk, BEq.comm]
          exact hfirst _ (List.mem_map_of_mem hother)

/-- Erasing the entry of a key leaves the other keys alone. -/
theorem find?_of_erase?_of_ne [EquivBEq κ] {f f' : Frame ε} {k k' : κ} {e : ε}
    (h : f.erase? k' = some (e, f')) (hne : (k' == k) = false) : f'.find? k = f.find? k := by
  simp only [erase?, Option.map_eq_some_iff, Prod.mk.injEq] at h
  rcases h with ⟨held, -, -, rfl⟩
  simp only [find?]
  induction f.entries with
  | nil => rfl
  | cons first rest ih =>
      cases hk : Entry.key first == k' with
      | false => simp [hk, List.find?_cons, ih]
      | true =>
          have hfirst : (Entry.key first == k) = false := by rw [BEq.congr_left hk, hne]
          simp [hk, hfirst]

/-- Erasing a key keeps the hasher of the frame. -/
theorem hasher_of_erase? {f f' : Frame ε} {k : κ} {e : ε} (h : f.erase? k = some (e, f')) :
    f'.hasher = f.hasher := by
  simp only [erase?, Option.map_eq_some_iff, Prod.mk.injEq] at h
  rcases h with ⟨held, -, -, rfl⟩
  rfl

/-! ## Agreement -/

/-- The frames have the same hasher and hold the same under the key. -/
def AgreesOn (k : κ) (f g : Frame ε) : Prop :=
  f.hasher = g.hasher ∧ f.find? k = g.find? k

namespace AgreesOn

variable [EquivBEq κ] {k : κ} {f g : Frame ε}

/-- Frames that agree on a key find the same under all its spellings. -/
theorem find? (h : AgreesOn k f g) {k' : κ} (hk : (k' == k) = true) : f.find? k' = g.find? k' := by
  rw [f.find?_congr hk, g.find?_congr hk, h.2]

/--
Frames that agree on a key answer alike and still agree after an entry of the key is inserted.
-/
theorem insert (h : AgreesOn k f g) {e : ε} (he : (Entry.key e == k) = true) :
    (f.insert e).1 = (g.insert e).1 ∧ AgreesOn k (f.insert e).2 (g.insert e).2 := by
  have hheld := h.find? he
  refine ⟨hheld, h.1, ?_⟩
  rw [← find?_congr _ he, ← find?_congr _ he, find?_insert_self, find?_insert_self, hheld]

/-- Frames still agree on a key after an entry of another key is inserted into one of them. -/
theorem insert_left (h : AgreesOn k f g) {e : ε} (he : (Entry.key e == k) = false) :
    AgreesOn k (f.insert e).2 g :=
  ⟨h.1, (f.find?_insert_of_ne e he).trans h.2⟩

/-- Frames that agree on a key answer alike and still agree after the key is erased from both. -/
theorem erase? (h : AgreesOn k f g) {k' : κ} (hk : (k' == k) = true) :
    Option.Rel (fun a b => a.1 = b.1 ∧ AgreesOn k a.2 b.2) (f.erase? k') (g.erase? k') := by
  have hheld := h.find? hk
  rw [← map_fst_erase?, ← map_fst_erase?] at hheld
  cases hf : f.erase? k' with
  | none =>
      rw [hf, Option.map_none, eq_comm, Option.map_eq_none_iff] at hheld
      rw [hheld]
      exact .none
  | some a =>
      rw [hf, Option.map_some, eq_comm, Option.map_eq_some_iff] at hheld
      rcases hheld with ⟨b, hg, hab⟩
      rw [hg]
      refine .some ⟨hab.symm, ?_, ?_⟩
      · rw [hasher_of_erase? hf, hasher_of_erase? hg, h.1]
      · rw [← find?_congr _ hk, ← find?_congr _ hk, find?_of_erase? hf, find?_of_erase? hg]

/-- Frames still agree on a key after another key is erased from one of them. -/
theorem erase?_left (h : AgreesOn k f g) {k' : κ} (hk : (k' == k) = false) {a : ε × Frame ε}
    (ha : f.erase? k' = some a) : AgreesOn k a.2 g :=
  ⟨(hasher_of_erase? ha).trans h.1, (find?_of_erase?_of_ne ha hk).trans h.2⟩

/-- The entries under other keys do not matter for what a frame holds under a key. -/
theorem ofList_filter (hasher : Hasher) (entries : List ε) :
    AgreesOn k (ofList hasher entries)
      (ofList hasher (entries.filter fun e => Entry.key e == k)) := by
  have hfold : ∀ f g : Frame ε, AgreesOn k f g →
      AgreesOn k (entries.foldl (fun f new => (f.insert new).2) f)
        ((entries.filter fun e => Entry.key e == k).foldl (fun g new => (g.insert new).2) g) := by
    induction entries with
    | nil => exact fun f g h => h
    | cons e entries ih =>
        intro f g h
        cases he : Entry.key e == k with
        | true =>
            rw [List.filter_cons, he, if_pos rfl]
            exact ih _ _ (h.insert he).2
        | false =>
            rw [List.filter_cons, he, if_neg Bool.false_ne_true]
            exact ih _ _ (h.insert_left he)
  exact hfold _ _ ⟨rfl, rfl⟩

end AgreesOn

/-! ## Changing values -/

namespace AgreesOn

variable {ν : Type} [BEq ν] [EquivBEq κ] {k : κ} {f g : Frame (Binding κ ν)}

/-- Frames that agree on a key answer alike and still agree after its value is changed in both. -/
theorem modify? (h : AgreesOn k f g) {k' : κ} (hk : (k' == k) = true) (change : ν → ν) :
    Option.Rel (fun a b => a.1 = b.1 ∧ AgreesOn k a.2 b.2) (f.modify? k' change)
      (g.modify? k' change) := by
  have hheld := h.find? hk
  unfold Frame.modify?
  rw [← hheld]
  cases hf : f.find? k' with
  | none => exact .none
  | some old =>
      have hold : (old.key == k) = true := BEq.trans (key_beq_of_find? hf) hk
      have hnew := h.insert (e := ⟨old.key, change old.value⟩) hold
      exact .some ⟨rfl, hnew.2⟩

/-- Frames still agree on a key after the value of another key is changed in one of them. -/
theorem modify?_left (h : AgreesOn k f g) {k' : κ} (hk : (k' == k) = false) {change : ν → ν}
    {a : Binding κ ν × Frame (Binding κ ν)} (ha : f.modify? k' change = some a) :
    AgreesOn k a.2 g := by
  simp only [Frame.modify?, Option.map_eq_some_iff] at ha
  rcases ha with ⟨old, hf, rfl⟩
  have hkey : (old.key == k') = true := key_beq_of_find? hf
  apply h.insert_left
  change (old.key == k) = false
  rw [BEq.congr_left hkey, hk]

end AgreesOn

end Frame
end LexicalScope
