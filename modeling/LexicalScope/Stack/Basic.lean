import LexicalScope.Error

/-!
# Stacks of frames

A stack of frames that always has a root.  Frames are counted from the root, which
has index zero, to the current frame, whose index is the depth less one.  The root
is held apart from the frames above it, so that no operation can remove it.  Every
operation that changes a stack answers and gives the stack after it, which is the
stack before it if the operation fails.

Main results:

- Theorem {lit}`Stack.toList_push`: a pushed frame comes after all others.
- Theorem {lit}`Stack.frame?_eq_getElem?`: indexes count from the root.
- Theorem {lit}`Stack.pop_push`: popping after a push gives the frame and the stack back.
- Theorem {lit}`Stack.pop_fst_eq_error_iff`: only a stack of depth one refuses to pop.
-/

namespace LexicalScope

universe u v

/-- A root frame and the frames above it. -/
structure Stack (φ : Type u) where
  /-- The outermost frame. -/
  root : φ
  /-- The frames above the root, outermost first. -/
  pushed : Array φ

namespace Stack

variable {φ : Type u} {α : Type v}

/-! ## Construction and views -/

/-- The stack that consists of its root. -/
def ofRoot (root : φ) : Stack φ :=
  ⟨root, #[]⟩

/-- How many frames there are, the root included. -/
def depth (s : Stack φ) : Nat :=
  s.pushed.size + 1

/-- All frames from the root to the current one. -/
def toList (s : Stack φ) : List φ :=
  s.root :: s.pushed.toList

/-- Two stacks are equal if they have equal frames in the same order. -/
instance [BEq φ] : BEq (Stack φ) where
  beq a b := a.root == b.root && a.pushed == b.pushed

/-! ## Frames by index -/

/-- The frame with an index, counted from the root. -/
def frame? (s : Stack φ) : Nat → Option φ
  | 0 => some s.root
  | i + 1 => s.pushed[i]?

/-- Puts a frame in the place of the one with an index, if there is one. -/
def setFrame (s : Stack φ) : Nat → φ → Stack φ
  | 0, frame => { s with root := frame }
  | i + 1, frame => { s with pushed := s.pushed.setIfInBounds i frame }

/-- Changes the frame with an index in place, if there is one, and hands out what `f` answers. -/
def modifyFrame (s : Stack φ) (i : Nat) (f : φ → α × φ) : Option α × Stack φ :=
  match s.frame? i with
  | some frame =>
    let (answer, changed) := f frame
    (some answer, s.setFrame i changed)
  | none => (none, s)

/-! ## The current frame -/

/-- Puts a frame on top, which becomes the current one. -/
def push (s : Stack φ) (frame : φ) : Stack φ :=
  { s with pushed := s.pushed.push frame }

/-- Takes the current frame off, unless it is the root. -/
def pop (s : Stack φ) : Except Error φ × Stack φ :=
  match s.pushed.back? with
  | some frame => (.ok frame, { s with pushed := s.pushed.pop })
  | none => (.error .underflow, s)

/-- The current frame. -/
def top (s : Stack φ) : φ :=
  s.pushed.back?.getD s.root

/-- Whether the current frame is the root itself. -/
def topIsRoot (s : Stack φ) : Bool :=
  s.pushed.isEmpty

/-- Changes the current frame in place and hands out what `f` answers. -/
def modifyTop (s : Stack φ) (f : φ → α × φ) : α × Stack φ :=
  let (answer, changed) := f s.top
  (answer, s.setFrame s.pushed.size changed)

/-! ## Basic laws -/

/-- There is always the root. -/
theorem depth_pos (s : Stack φ) : 0 < s.depth :=
  Nat.succ_pos _

@[simp]
theorem depth_push (s : Stack φ) (frame : φ) : (s.push frame).depth = s.depth + 1 := by
  simp [depth, push]

@[simp]
theorem length_toList (s : Stack φ) : s.toList.length = s.depth := by
  simp [toList, depth]

/-- A stack is determined by the list of its frames. -/
theorem ext_toList {s t : Stack φ} (h : s.toList = t.toList) : s = t := by
  obtain ⟨root, pushed⟩ := s
  obtain ⟨root', pushed'⟩ := t
  simp only [toList, List.cons.injEq, Array.toList_inj] at h
  rw [h.1, h.2]

/-- A frame has the index of its place in the list of all frames. -/
theorem frame?_eq_getElem? (s : Stack φ) (i : Nat) : s.frame? i = s.toList[i]? := by
  cases i <;> simp [frame?, toList]

/-- Putting a frame in the place of another one changes that place in the list of all frames. -/
@[simp]
theorem toList_setFrame (s : Stack φ) (i : Nat) (frame : φ) :
    (s.setFrame i frame).toList = s.toList.set i frame := by
  cases i <;> simp [setFrame, toList]

@[simp]
theorem depth_setFrame (s : Stack φ) (i : Nat) (frame : φ) :
    (s.setFrame i frame).depth = s.depth := by
  rw [← length_toList, toList_setFrame, List.length_set, length_toList]

/-- A pushed frame comes after all others. -/
@[simp]
theorem toList_push (s : Stack φ) (frame : φ) : (s.push frame).toList = s.toList ++ [frame] := by
  simp [toList, push]

/-- The current frame is the one with the highest index. -/
theorem frame?_top (s : Stack φ) : s.frame? s.pushed.size = some s.top := by
  obtain ⟨root, pushed⟩ := s
  cases h : pushed.size with
  | zero => simp [frame?, top, Array.back?_eq_getElem?, h]
  | succ n => simp [frame?, top, Array.back?_eq_getElem?, h]

/-- A change of the current frame answers what the function answers for that frame. -/
@[simp]
theorem modifyTop_fst (s : Stack φ) (f : φ → α × φ) : (s.modifyTop f).1 = (f s.top).1 :=
  rfl

@[simp]
theorem depth_modifyTop (s : Stack φ) (f : φ → α × φ) : (s.modifyTop f).2.depth = s.depth :=
  depth_setFrame _ _ _

/-- Popping after a push gives the frame and the stack back. -/
@[simp]
theorem pop_push (s : Stack φ) (frame : φ) : (s.push frame).pop = (.ok frame, s) := by
  simp [pop, push]

/-- Only a stack of depth one refuses to pop. -/
theorem pop_fst_eq_error_iff (s : Stack φ) (e : Error) :
    s.pop.1 = .error e ↔ s.depth = 1 ∧ e = .underflow := by
  simp only [pop, depth, Array.back?_eq_getElem?]
  cases h : s.pushed.size with
  | zero => simp [h, eq_comm]
  | succ n =>
    have hlt : n < s.pushed.size := by omega
    simp [hlt]

end Stack
end LexicalScope
