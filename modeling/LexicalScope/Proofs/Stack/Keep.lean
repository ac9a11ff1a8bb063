import LexicalScope.Stack.Basic

/-!
# The outermost frames of a stack

Taking frames off a stack leaves its outermost frames, and two such truncations in a
row are one.

Main results:

- Theorem {lit}`Stack.keep_keep`: a truncation before a deeper one does not show.
- Theorem {lit}`Stack.pop_of_one_lt_depth`: above the root, a pop is a truncation by one.
- Theorems {lit}`Stack.keep_push`, {lit}`Stack.keep_pop` and {lit}`Stack.keep_setFrame`: what
  happens above a depth does not reach the frames below it.
- Theorems {lit}`Stack.frame?_push_of_lt` and {lit}`Stack.setFrame_push`: a frame on top does
  not get in the way of the others.
-/

namespace LexicalScope
namespace Stack

universe u

variable {φ : Type u}

/-- The outermost frames, at most as many as the given depth says. -/
def keep (s : Stack φ) (depth : Nat) : Stack φ :=
  { s with pushed := s.pushed.take (depth - 1) }

/-- What is kept of a stack is the beginning of its list. -/
theorem toList_keep (s : Stack φ) {d : Nat} (hd : 0 < d) :
    (s.keep d).toList = s.toList.take d := by
  obtain ⟨e, rfl⟩ : ∃ e, d = e + 1 := ⟨d - 1, by omega⟩
  simp [keep, toList]

/-- As many frames are kept as asked for, if there are so many. -/
theorem depth_keep (s : Stack φ) {d : Nat} (hd : 0 < d) : (s.keep d).depth = min d s.depth := by
  rw [← length_toList, toList_keep s hd, List.length_take, length_toList]

/-- Keeping at least as many frames as there are changes nothing. -/
theorem keep_of_depth_le (s : Stack φ) {d : Nat} (hd : s.depth ≤ d) : s.keep d = s := by
  have hpos : 0 < d := Nat.lt_of_lt_of_le s.depth_pos hd
  apply ext_toList
  rw [toList_keep s hpos, List.take_of_length_le]
  rwa [length_toList]

/-- Of two cuts the deeper one decides. -/
theorem keep_keep (s : Stack φ) {d e : Nat} (hd : 0 < d) (hde : d ≤ e) :
    (s.keep e).keep d = s.keep d := by
  apply ext_toList
  rw [toList_keep _ hd, toList_keep _ (by omega), toList_keep _ hd, List.take_take,
    Nat.min_eq_left hde]

/-- Above the root, a pop takes the current frame off and keeps all others. -/
theorem pop_of_one_lt_depth (s : Stack φ) (h : 1 < s.depth) :
    s.pop = (.ok s.top, s.keep (s.depth - 1)) := by
  have hsize : s.pushed.size - 1 < s.pushed.size := by
    simp only [depth] at h
    omega
  have hback : s.pushed.back? = some s.pushed[s.pushed.size - 1] := by
    rw [Array.back?_eq_getElem?, Array.getElem?_eq_getElem hsize]
  simp [pop, top, keep, depth, hback]

/-- A push leaves the frames below where they are. -/
theorem frame?_push_of_lt (s : Stack φ) (top : φ) {i : Nat} (hi : i < s.depth) :
    (s.push top).frame? i = s.frame? i := by
  rw [frame?_eq_getElem?, frame?_eq_getElem?, toList_push, List.getElem?_append_left]
  rwa [length_toList]

/-- A frame below the top can be replaced before or after the push. -/
theorem setFrame_push (s : Stack φ) (top : φ) {i : Nat} (hi : i < s.depth) (frame : φ) :
    (s.push top).setFrame i frame = (s.setFrame i frame).push top := by
  apply ext_toList
  rw [toList_setFrame, toList_push, toList_push, toList_setFrame, List.set_append_left]
  rwa [length_toList]

/-- A cut at or below the old depth removes what was pushed. -/
theorem keep_push (s : Stack φ) (frame : φ) {d : Nat} (hd : 0 < d) (h : d ≤ s.depth) :
    (s.push frame).keep d = s.keep d := by
  apply ext_toList
  rw [toList_keep _ hd, toList_keep _ hd, toList_push, List.take_append_of_le_length]
  rwa [length_toList]

/-- A cut below the current frame does not notice that it was popped. -/
theorem keep_pop (s : Stack φ) {d : Nat} (hd : 0 < d) (h : d < s.depth) :
    s.pop.2.keep d = s.keep d := by
  rw [pop_of_one_lt_depth s (by omega)]
  exact keep_keep s hd (by omega)

/-- A cut does not notice a frame that was replaced above it. -/
theorem keep_setFrame (s : Stack φ) {d i : Nat} (hd : 0 < d) (h : d ≤ i) (frame : φ) :
    (s.setFrame i frame).keep d = s.keep d := by
  apply ext_toList
  rw [toList_keep _ hd, toList_keep _ hd, toList_setFrame, List.take_set_of_le h]

/-- The root alone refuses to be popped, and stays. -/
theorem pop_of_depth_eq_one (s : Stack φ) (h : s.depth = 1) : s.pop = (.error .underflow, s) := by
  have hsize : s.pushed.size = 0 := by
    simp only [depth] at h
    omega
  simp [pop, Array.back?_eq_getElem?, hsize]

end Stack
end LexicalScope
