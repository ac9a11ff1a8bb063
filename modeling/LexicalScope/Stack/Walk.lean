import LexicalScope.Stack.Basic

/-!
# Walks over a stack

A walk visits the frames below some index from the innermost to the outermost.  An
index at or past the depth gives the walk over the whole stack, and the index zero
gives the empty walk.  A walk can list the frames, look for the first one with some
property, search with a predicate that keeps a state, change the first frame that
answers, or change every frame it visits until it is told to stop.  No walk reads a
frame that it does not need.

Main results:

- Theorem {lit}`Stack.length_below`: a walk below an index visits as many frames as
  the smaller of the index and the depth.
- Theorem {lit}`Stack.below_eq_reverse_take`: which frames these are, and in which order.
- Theorem {lit}`Stack.below_succ`: the walk begins with the frame of the highest index.
- Theorems {lit}`Stack.findSomeBelow?_eq` and {lit}`Stack.anyBelow_eq`: looking for a frame
  is looking through the listing.
-/

namespace LexicalScope

universe u v w

/-! ## Size hints -/

/-- Bounds on how many items are still to come; no upper bound may be known. -/
structure SizeHint where
  /-- At least this many are to come. -/
  lower : Nat
  /-- At most this many are to come, if there is a known bound. -/
  upper : Option Nat
  deriving DecidableEq

/-- The hint of a sequence whose length is known. -/
def SizeHint.exact (n : Nat) : SizeHint :=
  ⟨n, some n⟩

namespace Stack

variable {φ : Type u} {α : Type v} {σ : Type w}

/-! ## Listing -/

/-- The frames whose index is below `x`, innermost first. -/
def below (s : Stack φ) : Nat → List φ
  | 0 => []
  | x + 1 => (s.root :: (s.pushed.extract 0 x).toList).reverse

/-- All frames, innermost first. -/
def fromTop (s : Stack φ) : List φ :=
  s.below s.depth

/-- The innermost of the first `n` frames, at most as many as the limit allows. -/
def takeAmong (s : Stack φ) : (limit n : Nat) → List φ
  | 0, _ => []
  | _, 0 => []
  | limit + 1, n + 1 => (s.frame? n).toList ++ takeAmong s limit n

/-- The frames that come first on the walk below `x`, as many as the limit allows. -/
def takeBelow (s : Stack φ) (x limit : Nat) : List φ :=
  s.takeAmong limit (min x s.depth)

/-! ## Looking for a frame -/

/-- What `f` gives for the innermost of the first `n` frames for which it gives anything. -/
def findSomeAmong? (s : Stack φ) (f : φ → Option α) : Nat → Option α
  | 0 => none
  | n + 1 =>
    match (s.frame? n).bind f with
    | some answer => some answer
    | none => findSomeAmong? s f n

/-- What `f` gives for the innermost frame below `x` for which it gives anything. -/
def findSomeBelow? (s : Stack φ) (x : Nat) (f : φ → Option α) : Option α :=
  s.findSomeAmong? f (min x s.depth)

/-- Whether one of the first `n` frames has the property. -/
def anyAmong (s : Stack φ) (p : φ → Bool) : Nat → Bool
  | 0 => false
  | n + 1 => (s.frame? n).any p || anyAmong s p n

/-- Whether a frame below `x` has the property. -/
def anyBelow (s : Stack φ) (x : Nat) (p : φ → Bool) : Bool :=
  s.anyAmong p (min x s.depth)

/--
Asks the predicate about the first `n` frames from the innermost outwards until it
accepts one, and answers the index of that one.  The predicate's state is handed from
call to call.
-/
def searchAmong (s : Stack φ) (accepts : σ → φ → Bool × σ) : Nat → σ → Option Nat × σ
  | 0, state => (none, state)
  | n + 1, state =>
    match s.frame? n with
    | none => searchAmong s accepts n state
    | some frame =>
      match accepts state frame with
      | (true, state) => (some n, state)
      | (false, state) => searchAmong s accepts n state

/-- The index of the innermost frame that a predicate with a state accepts, and its last state. -/
def positionWith (s : Stack φ) (accepts : σ → φ → Bool × σ) (state : σ) : Option Nat × σ :=
  s.searchAmong accepts s.depth state

/-- The index of the innermost frame that satisfies a predicate. -/
def position (s : Stack φ) (accepts : φ → Bool) : Option Nat :=
  (s.positionWith (fun _ frame => (accepts frame, ())) ()).1

/-! ## Changing frames -/

/-- Changes the innermost of the first `n` frames on which `f` succeeds. -/
def changeFirstAmong (s : Stack φ) (f : φ → Option (α × φ)) : Nat → Option α × Stack φ
  | 0 => (none, s)
  | n + 1 =>
    match (s.frame? n).bind f with
    | some (answer, changed) => (some answer, s.setFrame n changed)
    | none => changeFirstAmong s f n

/-- Changes the innermost frame below `x` on which `f` succeeds, all others staying as they are. -/
def changeFirstBelow (s : Stack φ) (x : Nat) (f : φ → Option (α × φ)) : Option α × Stack φ :=
  s.changeFirstAmong f (min x s.depth)

/--
Changes the first `n` frames from the innermost outwards until `step` declines, and
answers the state, which is handed from one frame to the next.
-/
def changeWhileAmong (step : σ → φ → Option (φ × σ)) : Nat → Stack φ → σ → σ × Stack φ
  | 0, s, state => (state, s)
  | n + 1, s, state =>
    match s.frame? n with
    | none => changeWhileAmong step n s state
    | some frame =>
      match step state frame with
      | none => (state, s)
      | some (changed, state) => changeWhileAmong step n (s.setFrame n changed) state

/-- Changes the frames below `x`, innermost first, until `step` declines, and answers the state. -/
def changeWhileBelow (s : Stack φ) (x : Nat) (step : σ → φ → Option (φ × σ)) (state : σ) :
    σ × Stack φ :=
  changeWhileAmong step (min x s.depth) s state

/-! ## Basic laws -/

/-- A walk below an index lists the first frames, as many as the index says, in reverse. -/
theorem below_eq_reverse_take (s : Stack φ) (x : Nat) : s.below x = (s.toList.take x).reverse := by
  cases x <;> simp [below, toList]

/-- A walk below an index visits as many frames as the smaller of the index and the depth. -/
@[simp]
theorem length_below (s : Stack φ) (x : Nat) : (s.below x).length = min x s.depth := by
  simp [below_eq_reverse_take]

/-- No frame is below the root. -/
@[simp]
theorem below_zero (s : Stack φ) : s.below 0 = [] := by
  simp [below]

/-- A walk below an index begins with the frame of the highest index, if there is one. -/
theorem below_succ (s : Stack φ) (n : Nat) :
    s.below (n + 1) = (s.frame? n).toList ++ s.below n := by
  rw [below_eq_reverse_take, below_eq_reverse_take, List.take_add_one, List.reverse_append,
    frame?_eq_getElem?]
  cases s.toList[n]? <;> rfl

/-- An index past the depth gives the walk over the whole stack. -/
@[simp]
theorem below_min_depth (s : Stack φ) (x : Nat) : s.below (min x s.depth) = s.below x := by
  rw [below_eq_reverse_take, below_eq_reverse_take, ← length_toList, ← List.take_eq_take_min]

/-- The walk over all frames is their list backwards. -/
theorem fromTop_eq_reverse (s : Stack φ) : s.fromTop = s.toList.reverse := by
  rw [fromTop, below_eq_reverse_take, ← length_toList, List.take_length]

theorem length_fromTop (s : Stack φ) : s.fromTop.length = s.depth := by
  rw [fromTop, length_below, Nat.min_self]

/-- The walk over a stack begins with the current frame. -/
theorem fromTop_eq_cons (s : Stack φ) : s.fromTop = s.top :: s.below s.pushed.size := by
  rw [fromTop, depth, below_succ, frame?_top]
  rfl

/-- A change of the current frame leaves all other frames alone. -/
theorem fromTop_modifyTop (s : Stack φ) (f : φ → α × φ) :
    (s.modifyTop f).2.fromTop = (f s.top).2 :: s.fromTop.tail := by
  have hlast : s.pushed.size < s.toList.length := by simp [depth]
  rw [fromTop_eq_cons s, fromTop_eq_reverse, modifyTop, toList_setFrame,
    List.set_eq_take_append_cons_drop, if_pos hlast, List.drop_of_length_le (by simp [depth])]
  simp [below_eq_reverse_take]

/-- A walk that is cut short lists the first frames of the whole walk. -/
theorem takeBelow_eq (s : Stack φ) (x limit : Nat) :
    s.takeBelow x limit = (s.below x).take limit := by
  have among : ∀ n ≤ s.depth, ∀ limit, s.takeAmong limit n = (s.below n).take limit := by
    intro n
    induction n with
    | zero => intro _ limit; cases limit <;> simp [takeAmong]
    | succ n ih =>
      intro hn limit
      obtain ⟨frame, hframe⟩ : ∃ frame, s.frame? n = some frame := by
        rw [frame?_eq_getElem?]
        exact ⟨_, List.getElem?_eq_getElem (by rw [length_toList]; omega)⟩
      cases limit with
      | zero => simp [takeAmong]
      | succ limit => simp [takeAmong, below_succ, hframe, ih (by omega)]
  rw [takeBelow, among _ (Nat.min_le_right _ _), below_min_depth]

/-- The loop that looks for an answer goes through the frames below an index in order. -/
theorem findSomeAmong?_eq (s : Stack φ) (f : φ → Option α) (n : Nat) :
    s.findSomeAmong? f n = (s.below n).findSome? f := by
  induction n with
  | zero => simp [findSomeAmong?]
  | succ n ih =>
    rw [findSomeAmong?, below_succ, ih]
    cases s.frame? n with
    | none => rfl
    | some frame => cases h : f frame <;> simp [h]

/-- Looking for a frame below an index is looking through the listing of the walk. -/
theorem findSomeBelow?_eq (s : Stack φ) (x : Nat) (f : φ → Option α) :
    s.findSomeBelow? x f = (s.below x).findSome? f := by
  rw [findSomeBelow?, findSomeAmong?_eq, below_min_depth]

/-- The loop that looks for a frame goes through the frames below an index. -/
theorem anyAmong_eq (s : Stack φ) (p : φ → Bool) (n : Nat) :
    s.anyAmong p n = (s.below n).any p := by
  induction n with
  | zero => simp [anyAmong]
  | succ n ih =>
    rw [anyAmong, below_succ, ih]
    cases s.frame? n <;> simp

/-- Asking for a frame below an index is asking for it in the listing of the walk. -/
theorem anyBelow_eq (s : Stack φ) (x : Nat) (p : φ → Bool) :
    s.anyBelow x p = (s.below x).any p := by
  rw [anyBelow, anyAmong_eq, below_min_depth]

end Stack
end LexicalScope
