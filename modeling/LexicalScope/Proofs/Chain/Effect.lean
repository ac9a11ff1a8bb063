import LexicalScope.Chain.Bindings
import LexicalScope.Chain.Names
import LexicalScope.Proofs.Chain.Resolve

/-!
# Which frame an operation reaches

An operation about a key reaches at most one frame of a chain: the current one, the one
with a given index, or the innermost one below some index that holds the key.  Here is
which one that is, what the operation answers from it, and which frame it puts in its
place.  All other frames and the hasher of the chain stay as they are.

Main results:

- Theorem {lit}`Chain.innermost?_eq_some_iff`: the innermost frame below an index that holds a
  key is the one with the greatest index among those that do.
- Theorems {lit}`Chain.lookupBelow_of_innermost?` and {lit}`Chain.changeBelow_of_innermost?`:
  look-ups and changes reach that frame.
- Theorem {lit}`Chain.insertAt_of_frame?`: inserting by index reaches the frame with the index.
- Theorems {lit}`Chain.writtenAt_insertAt`, {lit}`Chain.writtenAt_changeBelow` and
  {lit}`Chain.writtenAt_eraseLocal`: an operation that is accepted changes the frame that it
  reaches, and one that is refused changes nothing.
-/

namespace LexicalScope

/-! ## Changes of the first frame that answers -/

namespace Stack

universe u v

variable {φ : Type u} {α : Type v}

/-- A change is made in the innermost frame that answers, and in no other. -/
theorem changeFirstAmong_of_greatest? (s : Stack φ) (f : φ → Option (α × φ)) {n i : Nat}
    (h : greatest? (fun i => ((s.frame? i).bind f).isSome) n = some i) :
    ∃ frame a changed, s.frame? i = some frame ∧ f frame = some (a, changed) ∧
      s.changeFirstAmong f n = (some a, s.setFrame i changed) := by
  induction n with
  | zero => cases h
  | succ n ih =>
      rw [changeFirstAmong]
      cases hn : (s.frame? n).bind f with
      | none =>
          rw [greatest?, hn] at h
          exact ih h
      | some found =>
          rw [greatest?, hn, Option.isSome_some, if_pos rfl, Option.some.injEq] at h
          subst h
          rcases Option.bind_eq_some_iff.mp hn with ⟨frame, hframe, hfound⟩
          exact ⟨frame, found.1, found.2, hframe, hfound, rfl⟩

/-- Without a frame that answers, nothing changes. -/
theorem changeFirstAmong_of_none (s : Stack φ) (f : φ → Option (α × φ)) {n : Nat}
    (h : greatest? (fun i => ((s.frame? i).bind f).isSome) n = none) :
    s.changeFirstAmong f n = (none, s) := by
  induction n with
  | zero => rfl
  | succ n ih =>
      rw [changeFirstAmong]
      cases hn : (s.frame? n).bind f with
      | none =>
          rw [greatest?, hn] at h
          exact ih h
      | some found =>
          rw [greatest?, hn] at h
          cases h

/-- After a frame was replaced, its index has the new one and all others have their own. -/
theorem frame?_setFrame (s : Stack φ) (i j : Nat) (frame : φ) :
    (s.setFrame i frame).frame? j =
      if i = j then (s.frame? j).map fun _ => frame else s.frame? j := by
  rw [frame?_eq_getElem?, frame?_eq_getElem?, toList_setFrame, List.getElem?_set]
  by_cases hij : i = j
  · subst hij
    by_cases hi : i < s.toList.length
    · rw [if_pos rfl, if_pos rfl, if_pos hi, List.getElem?_eq_getElem hi, Option.map_some]
    · rw [if_pos rfl, if_pos rfl, if_neg hi, List.getElem?_eq_none (Nat.not_lt.mp hi),
        Option.map_none]
  · rw [if_neg hij, if_neg hij]

end Stack

variable {ε κ : Type} [Entry ε κ] [BEq κ]

/-! ## Chains with one frame replaced -/

namespace Chain

/-- The chain with a frame in the place of the one with an index. -/
def setFrame (c : Chain ε) (i : Nat) (frame : Frame ε) : Chain ε :=
  { c with stack := c.stack.setFrame i frame }

@[simp]
theorem depth_setFrame (c : Chain ε) (i : Nat) (frame : Frame ε) :
    (c.setFrame i frame).depth = c.depth :=
  c.stack.depth_setFrame i frame

/-- A frame that was put at an index is there. -/
theorem frame?_setFrame_self (c : Chain ε) {i : Nat} (hi : i < c.depth) (frame : Frame ε) :
    (c.setFrame i frame).stack.frame? i = some frame := by
  rcases c.stack.exists_frame? hi with ⟨old, hold⟩
  simp [setFrame, Stack.frame?_setFrame, hold]

/-- Replacing a frame leaves the frames with other indexes. -/
theorem frame?_setFrame_of_ne (c : Chain ε) {i j : Nat} (hij : i ≠ j) (frame : Frame ε) :
    (c.setFrame i frame).stack.frame? j = c.stack.frame? j := by
  simp [setFrame, Stack.frame?_setFrame, hij]

/-- Of two frames put in the same place, the second one stays. -/
theorem setFrame_setFrame (c : Chain ε) (i : Nat) (first second : Frame ε) :
    (c.setFrame i first).setFrame i second = c.setFrame i second := by
  have hstack : (c.stack.setFrame i first).setFrame i second = c.stack.setFrame i second :=
    Stack.ext_toList (by simp)
  simp only [setFrame, hstack]

/-- The frame that is there already gives the chain back. -/
theorem setFrame_of_frame? {c : Chain ε} {i : Nat} {frame : Frame ε}
    (hframe : c.stack.frame? i = some frame) : c.setFrame i frame = c := by
  have hstack : c.stack.setFrame i frame = c.stack := by
    rw [Stack.frame?_eq_getElem?] at hframe
    rcases List.getElem?_eq_some_iff.mp hframe with ⟨hi, rfl⟩
    apply Stack.ext_toList
    rw [Stack.toList_setFrame, List.set_getElem_self]
  rw [setFrame, hstack]

/-- The index of the current frame is one less than the depth. -/
theorem frame?_top (c : Chain ε) : c.stack.frame? (c.depth - 1) = some c.stack.top :=
  c.stack.frame?_top

/-! ## The innermost frame that holds a key -/

/-- The index of the innermost frame below `x` that holds the key. -/
def innermost? (c : Chain ε) (x : Nat) (k : κ) : Option Nat :=
  Stack.greatest? (fun i => c.hasAt i k) (min x c.depth)

/-- The innermost frame below an index that holds a key has the greatest index of those that do. -/
theorem innermost?_eq_some_iff (c : Chain ε) (x : Nat) (k : κ) (i : Nat) :
    c.innermost? x k = some i ↔
      i < min x c.depth ∧ c.hasAt i k = true ∧
        ∀ j, i < j → j < min x c.depth → c.hasAt j k = false :=
  Stack.greatest?_eq_some_iff _ _ _

/-- There is no innermost frame with the key if and only if no frame below the bound holds it. -/
theorem innermost?_eq_none_iff (c : Chain ε) (x : Nat) (k : κ) :
    c.innermost? x k = none ↔ ∀ j < min x c.depth, c.hasAt j k = false :=
  Stack.greatest?_eq_none_iff _ _

/-- A key resolves to the innermost of all frames that hold it. -/
theorem resolve_eq_innermost? (c : Chain ε) (k : κ) : c.resolve k = c.innermost? c.depth k := by
  rw [resolve, Stack.position, Stack.positionWith, Stack.searchAmong_eq, innermost?, Nat.min_self]
  rfl

/-- The innermost frame that holds a key is one of the frames. -/
theorem lt_depth_of_innermost? {c : Chain ε} {x : Nat} {k : κ} {i : Nat}
    (h : c.innermost? x k = some i) : i < c.depth :=
  Nat.lt_of_lt_of_le ((c.innermost?_eq_some_iff x k i).mp h).1 (Nat.min_le_right _ _)

/-- Whether some entry is found in the frame with an index is whether that frame holds the key. -/
theorem isSome_bind_find? (c : Chain ε) (k : κ) (i : Nat) :
    ((c.stack.frame? i).bind fun frame => frame.find? k).isSome = c.hasAt i k := by
  rw [hasAt]
  cases c.stack.frame? i with
  | none => rfl
  | some frame => exact (frame.contains_eq_isSome_find? k).symm

/-- The frame with an index holds a key if and only if it exists and finds an entry. -/
theorem hasAt_eq_true_iff (c : Chain ε) (i : Nat) (k : κ) :
    c.hasAt i k = true ↔ ∃ frame e, c.stack.frame? i = some frame ∧ frame.find? k = some e := by
  rw [← isSome_bind_find?, Option.isSome_iff_exists]
  simp only [Option.bind_eq_some_iff]
  exact ⟨fun ⟨e, frame, h⟩ => ⟨frame, e, h⟩, fun ⟨frame, e, h⟩ => ⟨e, frame, h⟩⟩

/-! ## Look-ups -/

/-- A look-up below an index answers what the innermost frame there holds. -/
theorem lookupBelow_of_innermost? {c : Chain ε} {x : Nat} {k : κ} {i : Nat}
    (h : c.innermost? x k = some i) :
    ∃ frame e, c.stack.frame? i = some frame ∧ frame.find? k = some e ∧
      c.lookupBelow x k = .ok e := by
  have hheld := ((c.innermost?_eq_some_iff x k i).mp h).2.1
  rcases (c.hasAt_eq_true_iff i k).mp hheld with ⟨frame, e, hframe, hfind⟩
  have hgreatest : Stack.greatest? (fun i => c.hasAt i k) (min x c.stack.depth) = some i := h
  refine ⟨frame, e, hframe, hfind, ?_⟩
  simp only [lookupBelow, Stack.findSomeBelow?, Stack.findSomeAmong?_eq_bind, isSome_bind_find?,
    hgreatest, Option.bind_some, hframe, hfind]

/-- If no frame below the index holds the key, a look-up there fails. -/
theorem lookupBelow_of_none {c : Chain ε} {x : Nat} {k : κ} (h : c.innermost? x k = none) :
    c.lookupBelow x k = .error .keyNotFound := by
  have hgreatest : Stack.greatest? (fun i => c.hasAt i k) (min x c.stack.depth) = none := h
  simp only [lookupBelow, Stack.findSomeBelow?, Stack.findSomeAmong?_eq_bind, isSome_bind_find?,
    hgreatest, Option.bind_none]

/-! ## Inserting -/

/-- Inserting changes the current frame, and answers what the frame answers. -/
theorem insert_eq (c : Chain ε) (e : ε) :
    c.insert e = ((c.stack.top.insert e).1, c.setFrame (c.depth - 1) (c.stack.top.insert e).2) :=
  rfl

/-- Inserting by index changes that frame, and answers what the frame answers. -/
theorem insertAt_of_frame? {c : Chain ε} {i : Nat} {frame : Frame ε}
    (h : c.stack.frame? i = some frame) (e : ε) :
    c.insertAt i e = (.ok (frame.insert e).1, c.setFrame i (frame.insert e).2) := by
  simp only [insertAt, Stack.modifyFrame, h]
  rfl

/-- Inserting by an index out of range is refused. -/
theorem insertAt_of_depth_le {c : Chain ε} {i : Nat} (h : c.depth ≤ i) (e : ε) :
    c.insertAt i e = (.error (.outOfRange i c.depth), c) := by
  simp only [insertAt, Stack.modifyFrame, (c.stack.frame?_eq_none_iff i).mpr h]
  rfl

/-! ## Changing and erasing -/

section Changing

variable {change : Frame ε → Option (ε × Frame ε)} {k : κ}
  (hchange : ∀ frame, (change frame).isSome = frame.contains k)
include hchange

/--
If a change succeeds on the frames with the key, it does so at the indexes where the key is held.
-/
theorem isSome_bind_change (c : Chain ε) (i : Nat) :
    ((c.stack.frame? i).bind change).isSome = c.hasAt i k := by
  rw [hasAt]
  cases c.stack.frame? i with
  | none => rfl
  | some frame => exact hchange frame

/-- A change below an index is made in the innermost frame there that holds the key. -/
theorem changeBelow_of_innermost? {c : Chain ε} {x i : Nat} (h : c.innermost? x k = some i) :
    ∃ frame e changed, c.stack.frame? i = some frame ∧ change frame = some (e, changed) ∧
      c.changeBelow x change = (.ok e, c.setFrame i changed) := by
  have hgreatest : Stack.greatest? (fun i => ((c.stack.frame? i).bind change).isSome)
      (min x c.depth) = some i := by
    simp only [isSome_bind_change hchange]
    exact h
  rcases c.stack.changeFirstAmong_of_greatest? change hgreatest with
    ⟨frame, e, changed, hframe, hfound, heq⟩
  refine ⟨frame, e, changed, hframe, hfound, ?_⟩
  rw [changeBelow, Stack.changeFirstBelow, ← depth, heq]
  rfl

/-- If no frame below the index holds the key, the change is refused. -/
theorem changeBelow_of_none {c : Chain ε} {x : Nat} (h : c.innermost? x k = none) :
    c.changeBelow x change = (.error .keyNotFound, c) := by
  have hgreatest : Stack.greatest? (fun i => ((c.stack.frame? i).bind change).isSome)
      (min x c.depth) = none := by
    simp only [isSome_bind_change hchange]
    exact h
  rw [changeBelow, Stack.changeFirstBelow, ← depth, c.stack.changeFirstAmong_of_none change hgreatest]

end Changing

/-- A key is erased from the frame that it resolves to. -/
theorem erase_of_resolve {c : Chain ε} {k : κ} {i : Nat} (h : c.resolve k = some i) :
    ∃ frame e changed, c.stack.frame? i = some frame ∧ frame.erase? k = some (e, changed) ∧
      c.erase k = (.ok e, c.setFrame i changed) := by
  rw [resolve_eq_innermost?] at h
  exact changeBelow_of_innermost? (fun frame => frame.erase?_isSome k) h

/-- A key that resolves to no frame is not erased. -/
theorem erase_of_none {c : Chain ε} {k : κ} (h : c.resolve k = none) :
    c.erase k = (.error .keyNotFound, c) := by
  rw [resolve_eq_innermost?] at h
  exact changeBelow_of_none (fun frame => frame.erase?_isSome k) h

/-- A key that the current frame holds is erased from it. -/
theorem eraseLocal_of_erase? {c : Chain ε} {k : κ} {e : ε} {changed : Frame ε}
    (h : c.stack.top.erase? k = some (e, changed)) :
    c.eraseLocal k = (.ok e, c.setFrame (c.depth - 1) changed) := by
  simp only [eraseLocal, h]
  rfl

/-- A key that the current frame does not hold is not erased from it. -/
theorem eraseLocal_of_none {c : Chain ε} {k : κ} (h : c.stack.top.erase? k = none) :
    c.eraseLocal k = (.error .notInCurrentScope, c) := by
  simp only [eraseLocal, h]

/-! ## Where operations write -/

/--
What an operation answers and the chain after it, if it writes to the frame with the given
index and to no other.  An operation that is refused does not write.
-/
inductive WrittenAt {α : Type} (accepted : α → Bool) (c : Chain ε) :
    Option Nat → α × Chain ε → Prop where
  /-- Nothing is written, and the chain stays as it is. -/
  | nowhere (answer : α) : WrittenAt accepted c none (answer, c)
  /-- The operation is accepted, and another frame takes the place of the one with the index. -/
  | frame {i : Nat} (hi : i < c.depth) {answer : α} (h : accepted answer = true)
      (changed : Frame ε) : WrittenAt accepted c (some i) (answer, c.setFrame i changed)

namespace WrittenAt

variable {α β : Type} {accepted : α → Bool} {c : Chain ε} {written : Option Nat}
  {outcome : α × Chain ε}

/-- To answer differently does not matter, as long as nothing is refused that was accepted. -/
theorem map (h : WrittenAt accepted c written outcome) (accepted' : β → Bool) (f : α → β)
    (hf : ∀ a, accepted a = true → accepted' (f a) = true) :
    WrittenAt accepted' c written (outcome.map f id) := by
  cases h with
  | nowhere answer => exact .nowhere (f answer)
  | frame hi h changed => exact .frame hi (hf _ h) changed

/-- Mapping the results of an operation does not change where it writes. -/
theorem map_isOk {outcome : Except Error α × Chain ε}
    (h : WrittenAt Except.isOk c written outcome) (f : α → β) :
    WrittenAt Except.isOk c written (outcome.map (Except.map f) id) := by
  apply h.map Except.isOk (Except.map f)
  intro answer hanswer
  cases answer with
  | ok a => rfl
  | error e => cases hanswer

/-- An operation that is refused leaves the chain as it is. -/
theorem eq_of_refused (h : WrittenAt accepted c written outcome)
    (hrefused : accepted outcome.1 = false) : outcome.2 = c := by
  cases h with
  | nowhere answer => rfl
  | frame hi h changed =>
      rw [h] at hrefused
      cases hrefused

/-- An operation that writes to one frame keeps the depth. -/
theorem depth_eq (h : WrittenAt accepted c written outcome) : outcome.2.depth = c.depth := by
  cases h with
  | nowhere answer => rfl
  | frame hi h changed => exact c.depth_setFrame _ changed

end WrittenAt

/-- Inserting writes to the current frame. -/
theorem writtenAt_insert (c : Chain ε) (e : ε) :
    c.WrittenAt (fun _ => true) (some (c.depth - 1)) (c.insert e) :=
  .frame (Nat.sub_lt c.stack.depth_pos Nat.one_pos) rfl _

/-- Inserting by index writes to that frame, if there is one. -/
theorem writtenAt_insertAt (c : Chain ε) (i : Nat) (e : ε) :
    c.WrittenAt Except.isOk (if i < c.depth then some i else none) (c.insertAt i e) := by
  by_cases hi : i < c.depth
  · rcases c.stack.exists_frame? hi with ⟨frame, hframe⟩
    rw [if_pos hi, insertAt_of_frame? hframe]
    exact .frame hi rfl _
  · rw [if_neg hi, insertAt_of_depth_le (Nat.not_lt.mp hi)]
    exact .nowhere _

/-- A change writes to the innermost frame below the index that holds the key. -/
theorem writtenAt_changeBelow {change : Frame ε → Option (ε × Frame ε)} {k : κ}
    (hchange : ∀ frame, (change frame).isSome = frame.contains k) (c : Chain ε) (x : Nat) :
    c.WrittenAt Except.isOk (c.innermost? x k) (c.changeBelow x change) := by
  cases h : c.innermost? x k with
  | none =>
      rw [changeBelow_of_none hchange h]
      exact .nowhere _
  | some i =>
      rcases changeBelow_of_innermost? hchange h with ⟨frame, e, changed, -, -, heq⟩
      rw [heq]
      exact .frame (lt_depth_of_innermost? h) rfl changed

/-- Erasing a key writes to the frame that it resolves to. -/
theorem writtenAt_erase (c : Chain ε) (k : κ) :
    c.WrittenAt Except.isOk (c.resolve k) (c.erase k) := by
  rw [resolve_eq_innermost?]
  exact c.writtenAt_changeBelow (fun frame => frame.erase?_isSome k) c.depth

/-- Erasing a key from the current frame writes to it if it holds the key. -/
theorem writtenAt_eraseLocal (c : Chain ε) (k : κ) :
    c.WrittenAt Except.isOk (if c.hasLocal k then some (c.depth - 1) else none)
      (c.eraseLocal k) := by
  have hheld : (c.stack.top.erase? k).isSome = c.hasLocal k := c.stack.top.erase?_isSome k
  rw [← hheld]
  cases h : c.stack.top.erase? k with
  | none =>
      rw [eraseLocal_of_none h]
      exact .nowhere _
  | some held =>
      rw [eraseLocal_of_erase? h]
      exact .frame (Nat.sub_lt c.stack.depth_pos Nat.one_pos) rfl held.2

end Chain

/-! ## Assigning -/

namespace Frame

variable {ν : Type} [BEq ν]

/-- A value can be changed in a frame if and only if the frame binds the key. -/
theorem modify?_isSome (frame : Frame (Binding κ ν)) (k : κ) (f : ν → ν) :
    (frame.modify? k f).isSome = frame.contains k := by
  rw [modify?, Option.isSome_map, contains_eq_isSome_find?]

end Frame

namespace Bindings

variable {ν : Type} [BEq ν] {c : Bindings κ ν} {x : Nat} {k : κ}

/-- An assignment below an index is made in the innermost frame there that binds the key. -/
theorem modifyBelow_of_innermost? {i : Nat} (h : Chain.innermost? c x k = some i) (f : ν → ν) :
    ∃ frame b, c.stack.frame? i = some frame ∧ frame.find? k = some b ∧
      c.modifyBelow x k f =
        (.ok b.value, c.setFrame i (frame.insert ⟨b.key, f b.value⟩).2) := by
  rcases Chain.changeBelow_of_innermost? (fun frame => frame.modify?_isSome k f) h with
    ⟨frame, b, changed, hframe, hfound, heq⟩
  simp only [Frame.modify?, Option.map_eq_some_iff, Prod.mk.injEq] at hfound
  rcases hfound with ⟨old, hfind, rfl, rfl⟩
  refine ⟨frame, old, hframe, hfind, ?_⟩
  rw [modifyBelow, heq]
  rfl

/-- If no frame below the index binds the key, the assignment is refused. -/
theorem modifyBelow_of_none (h : Chain.innermost? c x k = none) (f : ν → ν) :
    c.modifyBelow x k f = (.error .keyNotFound, c) := by
  rw [modifyBelow, Chain.changeBelow_of_none (fun frame => frame.modify?_isSome k f) h]
  rfl

/-- An assignment writes to the innermost frame below the index that binds the key. -/
theorem writtenAt_modifyBelow (c : Bindings κ ν) (x : Nat) (k : κ) (f : ν → ν) :
    Chain.WrittenAt Except.isOk c (Chain.innermost? c x k) (c.modifyBelow x k f) :=
  (c.writtenAt_changeBelow (fun frame => frame.modify?_isSome k f) x).map_isOk _

end Bindings
end LexicalScope
