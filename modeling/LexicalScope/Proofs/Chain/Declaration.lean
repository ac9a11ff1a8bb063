import LexicalScope.Key.CaseFolded
import LexicalScope.Proofs.Chain.OneEntry

/-!
# Declaring into any frame

An entry that is put into a frame given by its index is seen from the indexes above it, up to the
next frame that holds the key, and from nowhere else.  So the key resolves to the frame unless it
resolved to one above it before.  A declaration in the current frame is the case that nothing is
above, and then the entry is always seen.

Main results:

- Theorem {lit}`Chain.insertedAt_insertAt`: what an entry in one frame changes.
- Theorem {lit}`Chain.insertAt_top`: inserting into the current frame is inserting at its index.
- Theorem {lit}`Chain.declaration_shows_between_holders`: all of this for chains of bindings and of
  names.
-/

namespace LexicalScope

variable {ε κ ν : Type} [BEq κ]

namespace Chain

variable [Entry ε κ]

/-! ## What is held after an insertion -/

/-- The entry that a frame holds once an entry is put in, which keeps a key that was there. -/
def putOver (stored : Option ε) (new : ε) : ε :=
  (stored.map fun old => Entry.replace old new).getD new

/-- The frame that a key resolves to once the frame with an index holds it too. -/
def resolveOver (resolved : Option Nat) (i : Nat) : Nat :=
  resolved.elim i (max i)

/--
In the second chain the frame with an index holds an entry, put over what it held under the key
before, and this is all that has changed.
-/
structure InsertedAt (c d : Chain ε) (i : Nat) (e : ε) : Prop
    extends DiffersAt c d i (Entry.key e) where
  /-- An entry that was there keeps its key as it was spelled. -/
  held : d.entryAt? i (Entry.key e) = some (putOver (c.entryAt? i (Entry.key e)) e)
  hasAt : ∀ j, d.hasAt j (Entry.key e) = (j == i || c.hasAt j (Entry.key e))
  resolve : d.resolve (Entry.key e) = some (resolveOver (c.resolve (Entry.key e)) i)
  /-- The entry is found from the indexes above it, up to the next frame that holds the key. -/
  lookupBelow : ∀ x, i < x → c.FreeBetween i x (Entry.key e) →
    d.lookupBelow x (Entry.key e) = .ok (putOver (c.entryAt? i (Entry.key e)) e)
  lookupBelow_of_not : ∀ x, ¬ (i < x ∧ c.FreeBetween i x (Entry.key e)) →
    d.lookupBelow x (Entry.key e) = c.lookupBelow x (Entry.key e)
  /-- Other keys are looked up as before, from everywhere. -/
  others : ∀ k', (Entry.key e == k') = false → SameLookups c d k'

section Inserting

variable {c d : Chain ε} {i : Nat} {e : ε} {k : κ}

/-- A key resolves to the index that held it or to the one that holds it now, if that is greater. -/
theorem resolve_of_hasAt (hheld : ∀ j, d.hasAt j k = (j == i || c.hasAt j k)) :
    d.resolve k = some (resolveOver (c.resolve k) i) := by
  rw [resolve_eq_some_iff_greatest]
  simp only [hheld, Bool.or_eq_true, beq_iff_eq]
  cases hresolve : c.resolve k with
  | none =>
      refine ⟨.inl rfl, fun j hj => ?_⟩
      rcases hj with rfl | hj
      · exact Nat.le_refl j
      · rw [c.hasAt_of_resolve_eq_none k hresolve] at hj
        cases hj
  | some r =>
      rcases (c.resolve_eq_some_iff_greatest k r).mp hresolve with ⟨hr, hgreatest⟩
      change (max i r = i ∨ c.hasAt (max i r) k = true) ∧ _
      constructor
      · rcases Nat.le_total i r with hir | hri
        · exact .inr (by rw [Nat.max_eq_right hir, hr])
        · exact .inl (Nat.max_eq_left hri)
      · rintro j (rfl | hj)
        · exact Nat.le_max_left j r
        · exact Nat.le_trans (hgreatest j hj) (Nat.le_max_right i r)

/-- Inserting by index answers what the frame held under the key. -/
theorem insertAt_fst (hi : i < c.depth) :
    (c.insertAt i e).1 = .ok (c.entryAt? i (Entry.key e)) := by
  rcases c.stack.exists_frame? hi with ⟨frame, hframe⟩
  rw [insertAt_of_frame? hframe, entryAt?, hframe]
  rfl

/-- Inserting into the current frame is inserting at its index. -/
theorem insertAt_top (c : Chain ε) (e : ε) :
    c.insertAt (c.depth - 1) e = (c.insert e).map .ok id := by
  rw [insertAt_of_frame? c.frame?_top, insert_eq]
  rfl

/-- In the current frame, nothing stands in front of what is inserted. -/
theorem resolveOver_top (c : Chain ε) (k : κ) :
    resolveOver (c.resolve k) (c.depth - 1) = c.depth - 1 := by
  cases hresolve : c.resolve k with
  | none => rfl
  | some r =>
      have hr := lt_depth_of_innermost? ((c.resolve_eq_innermost? k).symm.trans hresolve)
      exact Nat.max_eq_left (by omega)

/-- No frame is above the current one. -/
theorem freeBetween_top (c : Chain ε) (k : κ) : c.FreeBetween (c.depth - 1) c.depth k :=
  fun j hj hjd => absurd hjd (by omega)

variable [EquivBEq κ]

/-- What an entry in the frame with an index changes. -/
theorem insertedAt_insertAt (hi : i < c.depth) (e : ε) : InsertedAt c (c.insertAt i e).2 i e := by
  rcases c.stack.exists_frame? hi with ⟨frame, hframe⟩
  rw [insertAt_of_frame? hframe]
  have hentry : c.entryAt? i (Entry.key e) = frame.find? (Entry.key e) := by
    rw [entryAt?, hframe, Option.bind_some]
  have hdiffers : DiffersAt c (c.setFrame i (frame.insert e).2) i (Entry.key e) :=
    differsAt_setFrame hframe rfl (frame.others_insert BEq.rfl)
  have hheld : (c.setFrame i (frame.insert e).2).entryAt? i (Entry.key e) =
      some (putOver (c.entryAt? i (Entry.key e)) e) := by
    rw [entryAt?_setFrame_self hframe, Frame.find?_insert_self, hentry]
    rfl
  have hhasAt : ∀ j, (c.setFrame i (frame.insert e).2).hasAt j (Entry.key e) =
      (j == i || c.hasAt j (Entry.key e)) := by
    intro j
    by_cases hj : j = i
    · rw [hj, ← isSome_entryAt?, hheld, beq_self_eq_true]
      rfl
    · rw [hdiffers.hasAt_of_ne hj, beq_eq_false_iff_ne.mpr hj, Bool.false_or]
  exact {
    toDiffersAt := hdiffers
    held := hheld
    hasAt := hhasAt
    resolve := resolve_of_hasAt hhasAt
    lookupBelow := fun x hx hfree => (hdiffers.lookupBelow_of_held hheld x).1 ⟨hx, hfree⟩
    lookupBelow_of_not := fun x => (hdiffers.lookupBelow_of_held hheld x).2
    others := fun k' hne => hdiffers.sameLookups hne }

end Inserting

end Chain

/-! ## Chains of bindings -/

namespace Bindings

variable [BEq ν]

/-- What has changed once a key is bound to a value in the frame with an index. -/
structure DeclaredAt (c d : Bindings κ ν) (i : Nat) (k : κ) (v : ν) : Prop
    extends Chain.InsertedAt c d i ⟨k, v⟩ where
  /-- A key that was bound in the frame stays as it was spelled there. -/
  spelled : d.entryAt? i k = some ⟨((c.entryAt? i k).map Binding.key).getD k, v⟩
  getBelow : ∀ x, i < x → c.FreeBetween i x k → d.getBelow x k = .ok v
  getBelow_of_not : ∀ x, ¬ (i < x ∧ c.FreeBetween i x k) → d.getBelow x k = c.getBelow x k
  /-- The value is what the key has if no frame above holds the key. -/
  get : c.FreeBetween i c.depth k → d.get k = .ok v
  get_of_not : ¬ c.FreeBetween i c.depth k → d.get k = c.get k

/-- What declarations of a key answer and change. -/
structure DeclarationLaws (c : Bindings κ ν) (k : κ) (v : ν) : Prop where
  /-- The answer is the value that the key had in the frame, if it had one. -/
  answer : ∀ i < c.depth, (c.declareAt i k v).1 = .ok ((c.entryAt? i k).map Binding.value)
  replaces : ∀ i, (c.entryAt? i k).isSome = c.hasAt i k
  declaredAt : ∀ i < c.depth, DeclaredAt c (c.declareAt i k v).2 i k v
  /-- To declare in the current frame is to declare at its index. -/
  declare : c.declareAt (c.depth - 1) k v = (c.declare k v).map .ok id
  get : Bindings.get (c.declare k v).2 k = .ok v
  resolve : (c.declare k v).2.resolve k = some (c.depth - 1)
  getBelow : ∀ x < c.depth, Bindings.getBelow (c.declare k v).2 x k = c.getBelow x k

variable {c d : Bindings κ ν} {i : Nat} {k : κ} {v : ν}

omit [BEq κ] in
/-- A binding that is put over another one has the new value and the old spelling. -/
theorem putOver_eq (stored : Option (Binding κ ν)) (k : κ) (v : ν) :
    Chain.putOver stored ⟨k, v⟩ = (⟨(stored.map Binding.key).getD k, v⟩ : Binding κ ν) := by
  cases stored <;> rfl

/-- If just a binding has been put into a frame, the key is declared there. -/
theorem declaredAt_of_insertedAt (hi : i < c.depth) (h : Chain.InsertedAt c d i ⟨k, v⟩) :
    DeclaredAt c d i k v := by
  have hfound : ∀ x, i < x → c.FreeBetween i x k → Bindings.getBelow d x k = .ok v := by
    intro x hx hfree
    have hlookup : d.lookupBelow x k = _ := h.lookupBelow x hx hfree
    rw [putOver_eq] at hlookup
    rw [Bindings.getBelow, hlookup]
    rfl
  have hhidden : ∀ x, ¬ (i < x ∧ c.FreeBetween i x k) →
      Bindings.getBelow d x k = Bindings.getBelow c x k := fun x hx =>
    congrArg (Except.map Binding.value) (h.lookupBelow_of_not x hx)
  have hget : Bindings.get d k = Bindings.getBelow d c.depth k := by
    rw [← h.depth]
    rfl
  exact {
    toInsertedAt := h
    spelled := h.held.trans (congrArg some (putOver_eq _ k v))
    getBelow := hfound
    getBelow_of_not := hhidden
    get := fun hfree => hget.trans (hfound _ hi hfree)
    get_of_not := fun hcovered => hget.trans (hhidden _ fun hfree => hcovered hfree.2) }

/--
Declarations in any frame, the current one included, change one binding and answer the old value.
-/
theorem declarationLaws [EquivBEq κ] (c : Bindings κ ν) (k : κ) (v : ν) : DeclarationLaws c k v := by
  have hdeclaredAt : ∀ i < c.depth, DeclaredAt c (c.declareAt i k v).2 i k v := fun i hi =>
    declaredAt_of_insertedAt hi (Chain.insertedAt_insertAt hi ⟨k, v⟩)
  have hdeclare : c.declareAt (c.depth - 1) k v = (c.declare k v).map .ok id := by
    rw [declareAt, Chain.insertAt_top]
    rfl
  have htop : DeclaredAt c (c.declare k v).2 (c.depth - 1) k v := by
    have h := hdeclaredAt (c.depth - 1) (Nat.sub_lt c.stack.depth_pos Nat.one_pos)
    rwa [hdeclare] at h
  exact {
    answer := fun i hi => by
      have hanswer : (c.insertAt i (⟨k, v⟩ : Binding κ ν)).1 = .ok (c.entryAt? i k) :=
        Chain.insertAt_fst hi
      rw [declareAt, Prod.map_fst, hanswer]
      rfl
    replaces := fun i => c.isSome_entryAt? k i
    declaredAt := hdeclaredAt
    declare := hdeclare
    get := htop.get (c.freeBetween_top k)
    resolve := htop.resolve.trans (congrArg some (c.resolveOver_top k))
    getBelow := fun x hx => htop.getBelow_of_not x fun h => absurd h.1 (by omega) }

end Bindings

/-! ## Chains of names -/

namespace Names

/-- What has changed once a key is added to the frame with an index. -/
structure AddedAt (c d : Names κ) (i : Nat) (k : κ) : Prop
    extends Chain.InsertedAt c d i ⟨k⟩ where
  /-- A key that was in the frame stays as it was spelled there. -/
  spelled : d.entryAt? i k = some ⟨((c.entryAt? i k).map Member.key).getD k⟩
  /-- What is found if no frame above holds the key is how the frame spells it. -/
  get : c.FreeBetween i c.depth k → d.get k = .ok (((c.entryAt? i k).map Member.key).getD k)
  get_of_not : ¬ c.FreeBetween i c.depth k → d.get k = c.get k

/-- What additions of a key answer and change. -/
structure AdditionLaws (c : Names κ) (k : κ) : Prop where
  /-- The answer is whether the key is new in the frame. -/
  answer : ∀ i < c.depth, (c.addAt i k).1 = .ok (!c.hasAt i k)
  addedAt : ∀ i < c.depth, AddedAt c (c.addAt i k).2 i k
  /-- To add to the current frame is to add at its index. -/
  add : c.addAt (c.depth - 1) k = (c.add k).map .ok id
  get : Names.get (c.add k).2 k = .ok (((c.entryAt? (c.depth - 1) k).map Member.key).getD k)
  resolve : (c.add k).2.resolve k = some (c.depth - 1)
  lookupBelow : ∀ x < c.depth, (c.add k).2.lookupBelow x k = c.lookupBelow x k

variable {c d : Names κ} {i : Nat} {k : κ}

omit [BEq κ] in
/-- A name that is put over another one keeps the old spelling. -/
theorem putOver_eq (stored : Option (Member κ)) (k : κ) :
    Chain.putOver stored ⟨k⟩ = (⟨(stored.map Member.key).getD k⟩ : Member κ) := by
  cases stored <;> rfl

/-- If just a name has been put into a frame, the key is added there. -/
theorem addedAt_of_insertedAt (hi : i < c.depth) (h : Chain.InsertedAt c d i ⟨k⟩) :
    AddedAt c d i k := by
  have hget : Names.get d k = (d.lookupBelow c.depth k).map Member.key := by
    rw [← h.depth]
    rfl
  have hspelled := h.held.trans (congrArg some (putOver_eq _ k))
  refine ⟨h, hspelled, fun hfree => ?_, fun hcovered => ?_⟩
  · have hlookup : d.lookupBelow c.depth k = _ := h.lookupBelow c.depth hi hfree
    rw [hget, hlookup, putOver_eq]
    rfl
  · have hlookup := h.lookupBelow_of_not c.depth fun hfree => hcovered hfree.2
    exact hget.trans (congrArg (Except.map Member.key) hlookup)

/--
Additions to any frame, the current one included, change one name and answer whether it is new.
-/
theorem additionLaws [EquivBEq κ] (c : Names κ) (k : κ) : AdditionLaws c k := by
  have haddedAt : ∀ i < c.depth, AddedAt c (c.addAt i k).2 i k := fun i hi =>
    addedAt_of_insertedAt hi (Chain.insertedAt_insertAt hi ⟨k⟩)
  have hadd : c.addAt (c.depth - 1) k = (c.add k).map .ok id := by
    rw [addAt, Chain.insertAt_top]
    rfl
  have htop : AddedAt c (c.add k).2 (c.depth - 1) k := by
    have h := haddedAt (c.depth - 1) (Nat.sub_lt c.stack.depth_pos Nat.one_pos)
    rwa [hadd] at h
  exact {
    answer := fun i hi => by
      have hanswer : (c.insertAt i (⟨k⟩ : Member κ)).1 = .ok (c.entryAt? i k) :=
        Chain.insertAt_fst hi
      rw [addAt, Prod.map_fst, hanswer, ← c.isSome_entryAt? k i, Option.not_isSome]
      rfl
    addedAt := haddedAt
    add := hadd
    get := htop.get (c.freeBetween_top k)
    resolve := htop.resolve.trans (congrArg some (c.resolveOver_top k))
    lookupBelow := fun x hx => htop.lookupBelow_of_not x fun h => absurd h.1 (by omega) }

end Names

/-! ## Both kinds of chains -/

namespace Chain

/--
In every chain, a declaration in the frame with an index answers what it replaces there, and
changes this one entry.  It shows from the indexes above, up to the next frame that holds the key,
and what is declared in the current frame always shows.
-/
theorem declaration_shows_between_holders [EquivBEq κ] [BEq ν] :
    (∀ (c : Bindings κ ν) (k : κ) (v : ν), Bindings.DeclarationLaws c k v) ∧
    (∀ (c : Names κ) (k : κ), Names.AdditionLaws c k) :=
  ⟨Bindings.declarationLaws, Names.additionLaws⟩

/-- Between two frames that bind a key, it is bound in a frame that has it in another spelling. -/
theorem declaration_shows_between_holders_hidden :
    let upper : CaseFolded := ⟨"NAME", "name", by decide +kernel⟩
    let lower : CaseFolded := ⟨"name", "name", by decide +kernel⟩
    let c : Bindings CaseFolded Nat :=
      ((ofRoot (.ofList .standard [⟨upper, 1⟩])).pushFrame
        (.ofList .standard [⟨upper, 2⟩])).push.pushFrame (.ofList .standard [⟨lower, 3⟩])
    let d := (c.declareAt 1 lower 9).2
    Bindings.DeclarationLaws c lower 9 ∧ 1 < c.depth ∧
      (c.declareAt 1 lower 9).1.toOption = some (some 2) ∧ d.resolve lower = some 3 ∧
      (d.lookupBelow 3 lower).toOption.map (fun b => (b.key.spelling, b.value)) =
        some ("NAME", 9) ∧
      (Bindings.get d lower).toOption = some 3 := by
  intro upper lower c d
  have h : Bindings.DeclarationLaws c lower 9 := declaration_shows_between_holders.1 c lower 9
  exact ⟨h, by decide +kernel, by decide +kernel, by decide +kernel, by decide +kernel,
    by decide +kernel⟩

end Chain
end LexicalScope
