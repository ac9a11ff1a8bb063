import Mathlib.Data.List.Forall2
import LexicalScope.Stack.Walk

/-!
# What a search through a stack finds

A search goes from the innermost frame outwards and stops at the first frame that it
accepts.  So everything that searches a stack ends at the greatest accepted index,
{lit}`greatest?`, and differs only in what it does there.

Main results:

- Theorem {lit}`Stack.position_eq_some_iff`: the index that a search answers is that of an
  accepted frame, and no frame above it is accepted.
- Theorem {lit}`Stack.findSomeBelow?_eq_some_iff`: the same for a look-up below an index.
-/

namespace LexicalScope
namespace Stack

universe u v

variable {φ : Type u} {α : Type v}

/-! ## The greatest accepted index -/

/-- The greatest accepted index below {lit}`n`. -/
def greatest? (accepts : Nat → Bool) : Nat → Option Nat
  | 0 => none
  | n + 1 => if accepts n then some n else greatest? accepts n

/-- The greatest accepted index is accepted, and no index above it and below the bound is. -/
theorem greatest?_eq_some_iff (accepts : Nat → Bool) (n i : Nat) :
    greatest? accepts n = some i ↔
      i < n ∧ accepts i = true ∧ ∀ j, i < j → j < n → accepts j = false := by
  induction n with
  | zero => simp [greatest?]
  | succ n ih =>
      cases hn : accepts n with
      | true =>
          simp only [greatest?, hn, if_true, Option.some.injEq]
          constructor
          · rintro rfl
            exact ⟨Nat.lt_succ_self n, hn, fun j hij hj => by omega⟩
          · rintro ⟨hi, -, habove⟩
            by_contra hne
            have hfalse := habove n (by omega) (Nat.lt_succ_self n)
            rw [hn] at hfalse
            cases hfalse
      | false =>
          simp only [greatest?, hn, Bool.false_eq_true, if_false, ih]
          constructor
          · rintro ⟨hi, hacc, habove⟩
            refine ⟨by omega, hacc, fun j hij hj => ?_⟩
            by_cases hjn : j = n
            · rw [hjn, hn]
            · exact habove j hij (by omega)
          · rintro ⟨hi, hacc, habove⟩
            refine ⟨?_, hacc, fun j hij hj => habove j hij (by omega)⟩
            by_contra hle
            have hin : i = n := by omega
            rw [hin, hn] at hacc
            cases hacc

/-- There is no greatest accepted index if and only if none below the bound is accepted. -/
theorem greatest?_eq_none_iff (accepts : Nat → Bool) (n : Nat) :
    greatest? accepts n = none ↔ ∀ j < n, accepts j = false := by
  induction n with
  | zero => simp [greatest?]
  | succ n ih =>
      cases hn : accepts n with
      | true =>
          simp only [greatest?, hn, if_true, reduceCtorEq, false_iff, not_forall]
          exact ⟨n, Nat.lt_succ_self n, by simp [hn]⟩
      | false =>
          simp only [greatest?, hn, Bool.false_eq_true, if_false, ih, Nat.lt_succ_iff_lt_or_eq]
          constructor
          · rintro h j (hj | rfl)
            · exact h j hj
            · exact hn
          · exact fun h j hj => h j (Or.inl hj)

/-- The greatest accepted index is the last one in the list of all accepted indexes. -/
theorem greatest?_eq_getLast? (accepts : Nat → Bool) (n : Nat) :
    greatest? accepts n = ((List.range n).filter accepts).getLast? := by
  induction n with
  | zero => rfl
  | succ n ih =>
      rw [greatest?, List.range_succ, List.filter_append, List.getLast?_append]
      cases h : accepts n <;> simp [h, ih]

/-! ## Frames and indexes -/

/-- There is no frame with an index if and only if the index reaches the depth. -/
theorem frame?_eq_none_iff (s : Stack φ) (i : Nat) : s.frame? i = none ↔ s.depth ≤ i := by
  rw [frame?_eq_getElem?, List.getElem?_eq_none_iff, length_toList]

/-- The index of a frame is below the depth. -/
theorem lt_depth_of_frame? {s : Stack φ} {i : Nat} {frame : φ} (h : s.frame? i = some frame) :
    i < s.depth := by
  by_contra hle
  rw [(s.frame?_eq_none_iff i).mpr (by omega)] at h
  cases h

/-- Every index below the depth is that of a frame. -/
theorem exists_frame? (s : Stack φ) {i : Nat} (h : i < s.depth) :
    ∃ frame, s.frame? i = some frame := by
  cases hframe : s.frame? i with
  | none =>
      have hle := (s.frame?_eq_none_iff i).mp hframe
      omega
  | some frame => exact ⟨frame, rfl⟩

/-! ## Searches -/

/-- A search without a state finds the greatest index whose frame it accepts. -/
theorem searchAmong_eq (s : Stack φ) (p : φ → Bool) (n : Nat) :
    (s.searchAmong (fun _ frame => (p frame, ())) n ()).1 =
      greatest? (fun i => (s.frame? i).any p) n := by
  induction n with
  | zero => rfl
  | succ n ih =>
      cases hframe : s.frame? n with
      | none => simp [searchAmong, greatest?, hframe, ih]
      | some frame => cases hp : p frame <;> simp [searchAmong, greatest?, hframe, hp, ih]

/-- The loop answers what the frame with the greatest answering index answers. -/
theorem findSomeAmong?_eq_bind (s : Stack φ) (f : φ → Option α) (n : Nat) :
    s.findSomeAmong? f n =
      (greatest? (fun i => ((s.frame? i).bind f).isSome) n).bind fun i => (s.frame? i).bind f := by
  induction n with
  | zero => rfl
  | succ n ih =>
      cases hn : (s.frame? n).bind f with
      | none => simp [findSomeAmong?, greatest?, hn, ih]
      | some found => simp [findSomeAmong?, greatest?, hn]

/-- A search answers the index of the innermost accepted frame. -/
theorem position_eq_some_iff (s : Stack φ) (p : φ → Bool) (i : Nat) :
    s.position p = some i ↔
      (s.frame? i).any p = true ∧ ∀ j, i < j → (s.frame? j).any p = false := by
  rw [position, positionWith, searchAmong_eq, greatest?_eq_some_iff]
  constructor
  · rintro ⟨-, hacc, habove⟩
    refine ⟨hacc, fun j hij => ?_⟩
    by_cases hj : j < s.depth
    · exact habove j hij hj
    · rw [(s.frame?_eq_none_iff j).mpr (by omega)]
      rfl
  · rintro ⟨hacc, habove⟩
    rcases (Option.any_eq_true _ _).mp hacc with ⟨frame, hframe, -⟩
    exact ⟨lt_depth_of_frame? hframe, hacc, fun j hij _ => habove j hij⟩

/-- Nothing is found if and only if no frame is accepted. -/
theorem position_eq_none_iff (s : Stack φ) (p : φ → Bool) :
    s.position p = none ↔ ∀ j, (s.frame? j).any p = false := by
  rw [position, positionWith, searchAmong_eq, greatest?_eq_none_iff]
  constructor
  · intro h j
    by_cases hj : j < s.depth
    · exact h j hj
    · rw [(s.frame?_eq_none_iff j).mpr (by omega)]
      rfl
  · exact fun h j _ => h j

/-- A look-up below an index finds what the innermost frame that answers has to say. -/
theorem findSomeBelow?_eq_some_iff (s : Stack φ) (x : Nat) (f : φ → Option α) (a : α) :
    s.findSomeBelow? x f = some a ↔
      ∃ i < x, (s.frame? i).bind f = some a ∧
        ∀ j, i < j → j < x → (s.frame? j).bind f = none := by
  rw [findSomeBelow?, findSomeAmong?_eq_bind, Option.bind_eq_some_iff]
  simp only [greatest?_eq_some_iff, Option.isSome_eq_false_iff, Option.isNone_iff_eq_none]
  constructor
  · rintro ⟨i, ⟨hi, -, habove⟩, hfound⟩
    refine ⟨i, by omega, hfound, fun j hij hj => ?_⟩
    by_cases hjd : j < s.depth
    · exact habove j hij (by omega)
    · rw [(s.frame?_eq_none_iff j).mpr (by omega)]
      rfl
  · rintro ⟨i, hi, hfound, habove⟩
    rcases Option.bind_eq_some_iff.mp hfound with ⟨frame, hframe, -⟩
    have hdepth := lt_depth_of_frame? hframe
    refine ⟨i, ⟨by omega, by rw [hfound]; rfl, fun j hij hj => habove j hij (by omega)⟩, hfound⟩

/-- A change answers what a look-up in the same frames would find. -/
theorem changeFirstBelow_fst (s : Stack φ) (x : Nat) (f : φ → Option (α × φ)) :
    (s.changeFirstBelow x f).1 = s.findSomeBelow? x fun frame => (f frame).map Prod.fst := by
  rw [changeFirstBelow, findSomeBelow?]
  generalize min x s.depth = n
  induction n with
  | zero => rfl
  | succ n ih =>
      rw [changeFirstAmong, findSomeAmong?, ← ih]
      cases s.frame? n with
      | none => rfl
      | some frame =>
          simp only [Option.bind_some]
          cases f frame <;> rfl

end Stack
end LexicalScope
