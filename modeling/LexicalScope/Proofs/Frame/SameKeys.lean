import LexicalScope.Frame.Basic
import LexicalScope.Proofs.Stack.Related

/-!
# Frames that store the same keys

A frame of bare keys and a frame of bindings without a value worth speaking of store
the same keys if these are spelled alike and came in in the same order.  The tables do
the same things to their keys, so whatever is done to both frames, they go on storing
the same keys, and the answers tell the same.

Main results:

- Theorems {lit}`Frame.SameKeys.insert` and {lit}`Frame.SameKeys.erase?`: inserting and
  erasing under one key.
- Theorem {lit}`Frame.SameKeys.beq_eq`: two frames of keys are equal if and only if the frames
  of bindings are.
-/

namespace LexicalScope

variable {κ : Type}

/-! ## Keys as bindings -/

/-- The key, bound to the value that says nothing. -/
def Member.toBinding (m : Member κ) : Binding κ Unit :=
  ⟨m.key, ()⟩

/-- The key of a binding alone. -/
def Binding.toMember (b : Binding κ Unit) : Member κ :=
  ⟨b.key⟩

/-- The entries are stored under the same key, spelled in the same way. -/
def SameKey (m : Member κ) (b : Binding κ Unit) : Prop :=
  m.key = b.key

/-- Two found entries have the same key if their keys are equal as options. -/
theorem optionRel_sameKey {a : Option (Member κ)} {b : Option (Binding κ Unit)}
    (h : a.map Member.key = b.map Binding.key) : Option.Rel SameKey a b := by
  cases a with
  | none =>
      rw [Option.map_none, eq_comm, Option.map_eq_none_iff] at h
      rw [h]
      exact .none
  | some m =>
      rw [Option.map_some, eq_comm, Option.map_eq_some_iff] at h
      rcases h with ⟨b, rfl, hkey⟩
      exact .some hkey.symm

namespace Frame

variable [BEq κ]

/-- The frames have the same hasher and the same stored keys, in the same order. -/
def SameKeys (f : Frame (Member κ)) (g : Frame (Binding κ Unit)) : Prop :=
  f.hasher = g.hasher ∧ f.entries.map Member.key = g.entries.map Binding.key

/-- Two frames whose entries always agree are equal if they hold the same keys. -/
theorem beq_eq_all_contains {ε : Type} [Entry ε κ] (hagree : ∀ a b : ε, Entry.agree a b = true)
    (f f' : Frame ε) :
    (f == f') = (f.size == f'.size && (f.entries.map Entry.key).all fun k => f'.contains k) := by
  have hholds : (fun e => (f'.find? (Entry.key e)).any (Entry.agree e)) =
      fun e => f'.contains (Entry.key e) := by
    ext e
    rw [contains_eq_isSome_find?]
    cases f'.find? (Entry.key e) with
    | none => rfl
    | some stored => exact hagree e stored
  change (f.size == f'.size && f.entries.all fun e => _) = _
  rw [hholds, List.all_map]
  rfl

namespace SameKeys

variable {f f' : Frame (Member κ)} {g g' : Frame (Binding κ Unit)}

/-- Empty frames with the same hasher have the same keys. -/
theorem empty (hasher : Hasher) : SameKeys (.empty hasher : Frame (Member κ)) (.empty hasher) :=
  ⟨rfl, rfl⟩

/-- Frames with the same keys have equally many. -/
theorem size (h : SameKeys f g) : f.size = g.size := by
  have hlength := congrArg List.length h.2
  rw [List.length_map, List.length_map] at hlength
  exact hlength

/-- The names of the one frame are the bindings of the other without their values. -/
theorem entries_eq (h : SameKeys f g) : f.entries = g.entries.map Binding.toMember := by
  calc f.entries = (f.entries.map Member.key).map Member.mk := by simp [Function.comp_def]
    _ = (g.entries.map Binding.key).map Member.mk := by rw [h.2]
    _ = g.entries.map Binding.toMember := by
        rw [List.map_map]
        rfl

/-- Frames with the same keys find a key in the same spelling. -/
theorem map_key_find? (h : SameKeys f g) (k : κ) :
    (f.find? k).map Member.key = (g.find? k).map Binding.key := by
  calc (f.find? k).map Member.key = (f.entries.map Member.key).find? (· == k) := by
        rw [List.find?_map]
        rfl
    _ = (g.entries.map Binding.key).find? (· == k) := by rw [h.2]
    _ = (g.find? k).map Binding.key := by
        rw [List.find?_map]
        rfl

/-- Frames with the same keys find entries with the same key. -/
theorem find? (h : SameKeys f g) (k : κ) : Option.Rel SameKey (f.find? k) (g.find? k) :=
  optionRel_sameKey (h.map_key_find? k)

/-- Frames with the same keys contain the same keys. -/
theorem contains (h : SameKeys f g) (k : κ) : f.contains k = g.contains k := by
  rw [contains_eq_isSome_find?, contains_eq_isSome_find?]
  exact optionRel_isSome (h.find? k)

/-- Adding a name and binding it to no value answer alike, and leave the same keys. -/
theorem insert (h : SameKeys f g) (m : Member κ) :
    Option.Rel SameKey (f.insert m).1 (g.insert m.toBinding).1 ∧
      SameKeys (f.insert m).2 (g.insert m.toBinding).2 := by
  refine ⟨h.find? m.key, h.1, ?_⟩
  have hf : (f.insert m).2.entries.map Member.key =
      if f.contains m.key then f.entries.map Member.key else f.entries.map Member.key ++ [m.key] :=
    Entry.map_key_upsert m f.entries
  have hg : (g.insert m.toBinding).2.entries.map Binding.key =
      if g.contains m.key then g.entries.map Binding.key
      else g.entries.map Binding.key ++ [m.key] :=
    Entry.map_key_upsert m.toBinding g.entries
  rw [hf, hg, h.contains, h.2]

/-- Erasing a key answers alike on both, and leaves the same keys. -/
theorem erase? (h : SameKeys f g) (k : κ) :
    Option.Rel (fun a b => SameKey a.1 b.1 ∧ SameKeys a.2 b.2) (f.erase? k) (g.erase? k) := by
  have hkeys : (f.entries.eraseP fun m => m.key == k).map Member.key =
      (g.entries.eraseP fun b => b.key == k).map Binding.key := by
    calc (f.entries.eraseP fun m => m.key == k).map Member.key
        = (f.entries.map Member.key).eraseP (· == k) := by
          rw [List.eraseP_map]
          rfl
      _ = (g.entries.map Binding.key).eraseP (· == k) := by rw [h.2]
      _ = (g.entries.eraseP fun b => b.key == k).map Binding.key := by
          rw [List.eraseP_map]
          rfl
  unfold Frame.erase?
  rcases optionRel_cases (h.find? k) with ⟨hf, hg⟩ | ⟨m, b, hf, hg, hkey⟩
  · rw [hf, hg]
    exact .none
  · rw [hf, hg]
    exact .some ⟨hkey, h.1, hkeys⟩

/-- Frames that are made of names, and of those names bound to no value, have the same keys. -/
theorem ofList (hasher : Hasher) (entries : List (Member κ)) :
    SameKeys (.ofList hasher entries) (.ofList hasher (entries.map Member.toBinding)) := by
  have hinsert : ∀ f g, SameKeys f g → ∀ (m : Member κ) b, b = m.toBinding →
      SameKeys (f.insert m).2 (g.insert b).2 := by
    rintro f g h m _ rfl
    exact (h.insert m).2
  exact List.rel_foldl hinsert (empty hasher)
    (List.forall₂_map_right_iff.mpr (List.forall₂_same.mpr fun _ _ => rfl))

/-- Bindings without values make no difference to whether frames are equal. -/
theorem beq_eq (h : SameKeys f g) (h' : SameKeys f' g') : (f == f') = (g == g') := by
  have hcontains : (fun k => f'.contains k) = fun k => g'.contains k := funext h'.contains
  have hkeys : f.entries.map Entry.key = g.entries.map Entry.key := h.2
  rw [beq_eq_all_contains (fun _ _ => rfl), beq_eq_all_contains (fun _ _ => rfl), h.size, h'.size,
    hcontains, hkeys]

end SameKeys
end Frame

end LexicalScope
