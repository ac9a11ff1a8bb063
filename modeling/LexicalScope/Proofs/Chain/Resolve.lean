import LexicalScope.Chain.Keyed
import LexicalScope.Proofs.Stack.Search

/-!
# Where a key resolves to

A key resolves to the innermost frame that holds it, which is the frame with the
greatest index among those that hold it.  The look-up of a key answers the entry of
that frame, and the entry that a frame holds under a key is unique.

Main results:

- Theorem {lit}`Frame.find?_key_of_mem`: a frame answers the key of one of its entries with
  that entry.
- Theorem {lit}`Chain.resolve_eq_some_iff`: the frame that a key resolves to holds it, and no
  frame above does.
- Theorem {lit}`Chain.lookup_eq_ok_iff`: the look-up of a key answers what that frame holds.
- Theorem {lit}`Chain.erase_fst`: so does erasing the key.
-/

namespace LexicalScope

variable {ε κ : Type} [Entry ε κ] [BEq κ]

/-! ## The entry of a key in a frame -/

/-- Entries with distinct keys are distinct. -/
theorem Entry.nodup_of_distinct [ReflBEq κ] {entries : List ε} (h : Entry.Distinct entries) :
    entries.Nodup := by
  apply (List.pairwise_map.mp h).imp
  rintro a b hab rfl
  rw [BEq.rfl] at hab
  cases hab

namespace Frame

/-- A frame contains a key if and only if the key of some entry is equal to it. -/
theorem contains_eq_true_iff (f : Frame ε) (k : κ) :
    f.contains k = true ↔ ∃ e ∈ f.entries, (Entry.key e == k) = true :=
  List.any_eq_true

/-- A frame answers the key of one of its entries with that entry. -/
theorem find?_key_of_mem [EquivBEq κ] (f : Frame ε) {e : ε} (he : e ∈ f.entries) :
    f.find? (Entry.key e) = some e := by
  have hdistinct := f.distinct
  unfold find?
  revert he hdistinct
  generalize f.entries = entries
  intro he hdistinct
  induction entries with
  | nil => cases he
  | cons first rest ih =>
      rcases List.pairwise_cons.mp hdistinct with ⟨hfirst, hrest⟩
      rcases List.mem_cons.mp he with rfl | hmem
      · simp
      · have hne := hfirst (Entry.key e) (List.mem_map_of_mem hmem)
        simp [hne, ih hmem hrest]

/-- A frame answers equal keys alike, however they are spelled. -/
theorem find?_congr [EquivBEq κ] (f : Frame ε) {k k' : κ} (h : (k == k') = true) :
    f.find? k = f.find? k' := by
  have hkeys : (fun e : ε => Entry.key e == k) = fun e => Entry.key e == k' :=
    funext fun e => BEq.congr_right h
  rw [find?, find?, hkeys]

/-- What is taken out for a key is what is found for it. -/
theorem map_fst_erase? (f : Frame ε) (k : κ) : (f.erase? k).map Prod.fst = f.find? k := by
  simp [erase?, Function.comp_def]

end Frame

namespace Chain

/-! ## Which frames hold a key -/

/-- Whether some frame holds the key whose index is at least {lit}`n`. -/
def heldFrom (c : Chain ε) (n : Nat) (k : κ) : Bool :=
  (c.stack.toList.drop n).any fun frame => frame.contains k

/-- Above the current frame no key is held. -/
theorem heldFrom_of_depth_le (c : Chain ε) {n : Nat} (h : c.depth ≤ n) (k : κ) :
    c.heldFrom n k = false := by
  have hlength : c.stack.toList.length ≤ n := by
    rw [Stack.length_toList]
    exact h
  rw [heldFrom, List.drop_eq_nil_of_le hlength]
  rfl

/-- A key is held from an index on by the frame there or by one above it. -/
theorem heldFrom_eq_or (c : Chain ε) {n : Nat} {frame : Frame ε}
    (hframe : c.stack.frame? n = some frame) (k : κ) :
    c.heldFrom n k = (frame.contains k || c.heldFrom (n + 1) k) := by
  rw [Stack.frame?_eq_getElem?, List.getElem?_eq_some_iff] at hframe
  rcases hframe with ⟨hn, rfl⟩
  rw [heldFrom, List.drop_eq_getElem_cons hn, List.any_cons]
  rfl

/-- A key that is held from the root on is held by the chain. -/
theorem heldFrom_zero (c : Chain ε) (k : κ) : c.heldFrom 0 k = c.has k := by
  rw [has, Stack.anyBelow_eq, heldFrom, List.drop_zero]
  change _ = c.stack.fromTop.any _
  rw [Stack.fromTop_eq_reverse, List.any_reverse]

/-- A key is not held from an index on if and only if no frame from there on holds it. -/
theorem heldFrom_eq_false_iff (c : Chain ε) (n : Nat) (k : κ) :
    c.heldFrom n k = false ↔ ∀ j, n ≤ j → c.hasAt j k = false := by
  constructor
  · intro h j hj
    rw [hasAt]
    cases hframe : c.stack.frame? j with
    | none => rfl
    | some frame =>
        rw [Stack.frame?_eq_getElem?] at hframe
        have hmem : frame ∈ c.stack.toList.drop n := by
          rw [List.mem_drop_iff_getElem]
          rcases List.getElem?_eq_some_iff.mp hframe with ⟨hlt, hget⟩
          have hsum : n + (j - n) = j := by omega
          exact ⟨j - n, by omega, by simpa only [hsum] using hget⟩
        exact Bool.eq_false_iff.mpr fun hheld =>
          Bool.eq_false_iff.mp h (List.any_eq_true.mpr ⟨frame, hmem, hheld⟩)
  · intro h
    rw [heldFrom, List.any_eq_false]
    intro frame hmem
    rcases List.mem_drop_iff_getElem.mp hmem with ⟨i, hi, rfl⟩
    have hheld := h (n + i) (Nat.le_add_right n i)
    rw [hasAt, Stack.frame?_eq_getElem?, List.getElem?_eq_getElem (by omega)] at hheld
    exact Bool.eq_false_iff.mp hheld

/-! ## The frame that a key resolves to -/

/-- The frame that a key resolves to holds it, and no frame above does. -/
theorem resolve_eq_some_iff (c : Chain ε) (k : κ) (i : Nat) :
    c.resolve k = some i ↔ c.hasAt i k = true ∧ c.heldFrom (i + 1) k = false := by
  rw [resolve, Stack.position_eq_some_iff, heldFrom_eq_false_iff]
  rfl

/-- Equal keys resolve to the same index. -/
theorem resolve_congr [EquivBEq κ] (c : Chain ε) {k k' : κ} (h : (k == k') = true) :
    c.resolve k = c.resolve k' := by
  have hkeys : (fun frame : Frame ε => frame.contains k) = fun frame => frame.contains k' := by
    ext frame
    rw [Frame.contains_eq_isSome_find?, Frame.contains_eq_isSome_find?, frame.find?_congr h]
  rw [resolve, resolve, hkeys]

/-- A key that resolves to a frame is held by the chain. -/
theorem has_of_resolve (c : Chain ε) {k : κ} {i : Nat} (h : c.resolve k = some i) :
    c.has k = true := by
  have hheld := ((c.resolve_eq_some_iff k i).mp h).1
  rw [← heldFrom_zero]
  cases hnot : c.heldFrom 0 k with
  | true => rfl
  | false =>
      rw [(c.heldFrom_eq_false_iff 0 k).mp hnot i (Nat.zero_le i)] at hheld
      cases hheld

/-- The look-up of a key answers what the frame holds that the key resolves to. -/
theorem lookup_eq_ok_iff (c : Chain ε) (k : κ) (e : ε) :
    c.lookup k = .ok e ↔ ∃ i frame, c.resolve k = some i ∧ c.stack.frame? i = some frame ∧
      frame.find? k = some e := by
  have hlookup : c.lookup k = .ok e ↔
      c.stack.findSomeBelow? c.depth (fun frame => frame.find? k) = some e := by
    rw [lookup, lookupBelow]
    cases c.stack.findSomeBelow? c.depth fun frame => frame.find? k <;> simp
  -- A frame holds the key if it finds something under it.
  have hheld : ∀ j, (c.stack.frame? j).any (fun frame => frame.contains k) = false ↔
      (c.stack.frame? j).bind (fun frame => frame.find? k) = none := by
    intro j
    cases c.stack.frame? j with
    | none => exact ⟨fun _ => rfl, fun _ => rfl⟩
    | some frame =>
        rw [Option.any_some, Option.bind_some, Frame.contains_eq_isSome_find?,
          Option.isSome_eq_false_iff, Option.isNone_iff_eq_none]
  rw [hlookup, Stack.findSomeBelow?_eq_some_iff]
  simp only [resolve, Stack.position_eq_some_iff, hheld]
  constructor
  · rintro ⟨i, hi, hfound, habove⟩
    rcases Option.bind_eq_some_iff.mp hfound with ⟨frame, hframe, hfind⟩
    refine ⟨i, frame, ⟨?_, fun j hij => ?_⟩, hframe, hfind⟩
    · rw [hframe, Option.any_some, Frame.contains_eq_isSome_find?, hfind]
      rfl
    · by_cases hj : j < c.depth
      · exact habove j hij hj
      · rw [(c.stack.frame?_eq_none_iff j).mpr (Nat.not_lt.mp hj)]
        rfl
  · rintro ⟨i, frame, ⟨-, habove⟩, hframe, hfind⟩
    refine ⟨i, Stack.lt_depth_of_frame? hframe, ?_, fun j hij _ => habove j hij⟩
    rw [hframe]
    exact hfind

/-- Erasing a key answers what the look-up of the key would. -/
theorem erase_fst (c : Chain ε) (k : κ) : (c.erase k).1 = c.lookup k := by
  have hanswer := c.stack.changeFirstBelow_fst c.depth fun frame => frame.erase? k
  simp only [Frame.map_fst_erase?] at hanswer
  rw [lookup, lookupBelow, ← hanswer, erase, changeBelow]
  rcases c.stack.changeFirstBelow c.depth fun frame => frame.erase? k with ⟨_ | e, s⟩ <;> rfl

/-- What is taken out of the current frame is what that frame finds. -/
theorem eraseLocal_fst_eq_ok_iff (c : Chain ε) (k : κ) (e : ε) :
    (c.eraseLocal k).1 = .ok e ↔ c.stack.top.find? k = some e := by
  rw [eraseLocal, ← Frame.map_fst_erase?]
  rcases c.stack.top.erase? k with _ | ⟨a, f⟩ <;> simp

end Chain
end LexicalScope
