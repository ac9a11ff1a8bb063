import LexicalScope.Proofs.Stack.Plain

/-!
# Stacks on a machine

A machine counts in words.  It traps where a sum is no word, where a difference would be negative,
and where a slice would end beyond the items that there are.  The operations on a stack add one
to the number of pushed frames, subtract one from an index, slice the pushed frames below an index,
and turn the number of frames that a search has passed into an index.  None of this traps as long
as the depth is a word, and then the operations do what they do with natural numbers.

Main results:

- Theorem {lit}`Checked.region_eq`: a walk below an index slices no more than there is.
- Theorem {lit}`Checked.frame?_eq`: the frame with an index is found on every stack.
- Theorems {lit}`Checked.offset_le` and {lit}`Checked.positionWith_eq`: a search passes fewer
  frames than there are, and comes to the index of one.
- Theorem {lit}`Checked.perform_eq`: no operation traps.
- Theorem {lit}`Checked.runClient_eq`: no client of a stack comes to a trap.
-/

namespace LexicalScope

variable {φ α β σ : Type}

/-! ## Words -/

/-- Why a machine gives an operation up. -/
inductive Trap where
  /-- A sum is no word. -/
  | overflow
  /-- A difference would be negative. -/
  | underflow
  /-- A slice would end beyond the last item. -/
  | outOfBounds
  deriving DecidableEq

namespace Word

/-- The sum of two words. -/
def add (a b : UInt64) : Except Trap UInt64 :=
  if a.toNat + b.toNat < UInt64.size then .ok (a + b) else .error .overflow

/-- The difference of two words. -/
def sub (a b : UInt64) : Except Trap UInt64 :=
  if b ≤ a then .ok (a - b) else .error .underflow

/-- The difference of two words, or zero if it would be negative. -/
def subOrZero (a b : UInt64) : UInt64 :=
  if b ≤ a then a - b else 0

/-- The number of items of an array. -/
def length (items : Array α) : UInt64 :=
  .ofNat items.size

/-- Puts an item at the end of an array, whose number of items stays a word. -/
def push (items : Array α) (item : α) : Except Trap (Array α) :=
  if items.size + 1 < UInt64.size then .ok (items.push item) else .error .overflow

/-- The items of an array before an end. -/
def sliceTo (items : Array α) (stop : UInt64) : Except Trap (Array α) :=
  if stop ≤ length items then .ok (items.extract 0 stop.toNat) else .error .outOfBounds

/-- Two words have a sum if there is a word that is their sum as natural numbers. -/
theorem add_eq_ok_iff {a b c : UInt64} : add a b = .ok c ↔ c.toNat = a.toNat + b.toNat := by
  have hsum := UInt64.toNat_add a b
  rw [add]
  constructor
  · intro h
    split at h
    · next hfits =>
        cases h
        rw [hsum, Nat.mod_eq_of_lt hfits]
    · cases h
  · intro h
    have hfits : a.toNat + b.toNat < UInt64.size := h ▸ c.toNat_lt
    rw [if_pos hfits, Except.ok.injEq, ← UInt64.toNat_inj, hsum, Nat.mod_eq_of_lt hfits, h]

/-- Two words have a difference if there is a word that is their difference as natural numbers. -/
theorem sub_eq_ok_iff {a b c : UInt64} : sub a b = .ok c ↔ c.toNat + b.toNat = a.toNat := by
  have hdifference := UInt64.toNat_sub_of_le a b
  rw [sub]
  constructor
  · intro h
    split at h
    · next hle =>
        cases h
        rw [hdifference hle, Nat.sub_add_cancel (UInt64.le_iff_toNat_le.mp hle)]
    · cases h
  · intro h
    have hle : b ≤ a := UInt64.le_iff_toNat_le.mpr (by omega)
    rw [if_pos hle, Except.ok.injEq, ← UInt64.toNat_inj, hdifference hle, ← h, Nat.add_sub_cancel]

/-- The difference of words that stops at zero is that of numbers. -/
theorem toNat_subOrZero (a b : UInt64) : (subOrZero a b).toNat = a.toNat - b.toNat := by
  rw [subOrZero]
  split
  · next hle => exact UInt64.toNat_sub_of_le a b hle
  · next hlt =>
      rw [UInt64.le_iff_toNat_le] at hlt
      exact (Nat.sub_eq_zero_of_le (by omega)).symm

theorem toNat_length {items : Array α} (h : items.size < UInt64.size) :
    (length items).toNat = items.size :=
  UInt64.toNat_ofNat_of_lt' h

/-- An array grows without a trap if its new size fits into a word. -/
theorem push_eq {items : Array α} (h : items.size + 1 < UInt64.size) (item : α) :
    push items item = .ok (items.push item) :=
  if_pos h

/-- The beginning of an array is taken without a trap if it has so many items. -/
theorem sliceTo_eq {items : Array α} (h : items.size < UInt64.size) {stop : UInt64}
    (hstop : stop.toNat ≤ items.size) : sliceTo items stop = .ok (items.extract 0 stop.toNat) := by
  rw [sliceTo, if_pos]
  rwa [UInt64.le_iff_toNat_le, toNat_length h]

end Word

/-- There are so few pushed frames that the depth is a word. -/
def Stack.Fits (s : Stack φ) : Prop :=
  s.pushed.size < UInt64.size - 1

instance (s : Stack φ) : Decidable s.Fits :=
  inferInstanceAs (Decidable (_ < _))

/-- A depth that fits is below the number of words. -/
theorem Stack.Fits.depth_lt {s : Stack φ} (h : s.Fits) : s.depth < UInt64.size := by
  unfold Stack.Fits at h
  unfold Stack.depth
  omega

/-- A depth that fits is not changed by writing it as a word. -/
theorem Stack.Fits.toNat_depth {s : Stack φ} (h : s.Fits) :
    (UInt64.ofNat s.depth).toNat = s.depth :=
  UInt64.toNat_ofNat_of_lt' h.depth_lt

/-- If the depth fits, so does the number of frames above the root. -/
theorem Stack.Fits.size_lt {s : Stack φ} (h : s.Fits) : s.pushed.size < UInt64.size :=
  Nat.lt_of_succ_lt h.depth_lt

/-- That number is not changed by writing it as a word. -/
theorem Stack.Fits.toNat_size {s : Stack φ} (h : s.Fits) :
    (UInt64.ofNat s.pushed.size).toNat = s.pushed.size :=
  UInt64.toNat_ofNat_of_lt' h.size_lt

/-- There are no more frames after one was popped. -/
theorem Stack.Fits.pop {s : Stack φ} (h : s.Fits) : s.pop.2.Fits := by
  rw [Stack.pop]
  cases s.pushed.back? with
  | none => exact h
  | some frame =>
      have hsize : s.pushed.pop.size = s.pushed.size - 1 := Array.size_pop
      change s.pushed.pop.size < UInt64.size - 1
      rw [hsize]
      exact Nat.lt_of_le_of_lt (Nat.sub_le _ _) h

/-! ## Operations -/

namespace Checked

/-- How many frames there are, the root included. -/
def depth (s : Stack φ) : Except Trap UInt64 :=
  Word.add (Word.length s.pushed) 1

/-- Puts a frame on top, and answers the depth to be noted. -/
def push (s : Stack φ) (frame : φ) : Except Trap (UInt64 × Stack φ) := do
  let pushed ← Word.push s.pushed frame
  let s := { s with pushed := pushed }
  return (← depth s, s)

/-- Takes the current frame off, unless it is the root, and answers the depth to be noted. -/
def pop (s : Stack φ) : Except Trap (Except Error (φ × UInt64) × Stack φ) :=
  match s.pop with
  | (.ok frame, rest) => do return (.ok (frame, ← depth rest), rest)
  | (.error e, rest) => return (.error e, rest)

/-- The frame with an index, counted from the root. -/
def frame? (s : Stack φ) (index : UInt64) : Except Trap (Option φ) :=
  if index = 0 then return some s.root
  else do
    let i ← Word.sub index 1
    return s.pushed[i.toNat]?

/-- Changes the frame with an index in place, if there is one, and hands out what `f` answers. -/
def modifyFrame (s : Stack φ) (index : UInt64) (f : φ → α × φ) :
    Except Trap (Option α × Stack φ) :=
  if index = 0 then
    let (answer, changed) := f s.root
    return (some answer, { s with root := changed })
  else do
    let i ← Word.sub index 1
    match s.pushed[i.toNat]? with
    | some frame =>
      let (answer, changed) := f frame
      return (some answer, { s with pushed := s.pushed.setIfInBounds i.toNat changed })
    | none => return (none, s)

/-- How many frames a walk below an index visits, and the slice of pushed frames that it takes. -/
def region (s : Stack φ) (index : UInt64) : Except Trap (UInt64 × Array φ) := do
  let last := min index (← depth s)
  return (last, ← Word.sliceTo s.pushed (Word.subOrZero last 1))

/-- The frames whose index is below the given one, innermost first. -/
def below (s : Stack φ) (index : UInt64) : Except Trap (List φ) := do
  let (last, slice) ← region s index
  return slice.toList.reverse ++ if 0 < last then [s.root] else []

/-- All frames, innermost first. -/
def fromTop (s : Stack φ) : Except Trap (List φ) := do
  below s (← depth s)

/-- The frames that come first on the walk below an index, as many as the limit allows. -/
def takeBelow (s : Stack φ) (index : UInt64) (limit : Nat) : Except Trap (List φ) := do
  let (last, _) ← region s index
  return s.takeAmong limit last.toNat

/-- Changes the frames below an index, innermost first, until `step` declines. -/
def changeWhileBelow (s : Stack φ) (index : UInt64) (step : σ → φ → Option (φ × σ)) (state : σ) :
    Except Trap (σ × Stack φ) := do
  let (last, _) ← region s index
  return Stack.changeWhileAmong step last.toNat s state

/-- Asks the predicate about the frames of a walk, and counts those before the first hit. -/
def countUntil (accepts : σ → φ → Bool × σ) :
    List φ → UInt64 → σ → Except Trap (Option UInt64 × σ)
  | [], _, state => return (none, state)
  | frame :: rest, offset, state =>
    match accepts state frame with
    | (true, state) => return (some offset, state)
    | (false, state) => do countUntil accepts rest (← Word.add offset 1) state

/-- The index of the innermost frame that a predicate with a state accepts, and its last state. -/
def positionWith (s : Stack φ) (accepts : σ → φ → Bool × σ) (state : σ) :
    Except Trap (Option UInt64 × σ) := do
  let top ← Word.sub (← depth s) 1
  match ← countUntil accepts (← fromTop s) 0 state with
  | (some offset, state) => return (some (← Word.sub top offset), state)
  | (none, state) => return (none, state)

/-- The index of the innermost frame that satisfies a predicate. -/
def position (s : Stack φ) (accepts : φ → Bool) : Except Trap (Option UInt64) := do
  let (index, _) ← positionWith s (fun _ frame => (accepts frame, ())) ()
  return index

/-! ## Where operations trap -/

section Basic

variable {s : Stack φ}

/-- Asking for the depth does not trap. -/
theorem depth_eq (h : s.Fits) : depth s = .ok (.ofNat s.depth) := by
  rw [depth, Word.add_eq_ok_iff, h.toNat_depth, Word.toNat_length h.size_lt]
  rfl

/-- One less than the depth is the index of the current frame. -/
theorem sub_depth_eq (h : s.Fits) : Word.sub (.ofNat s.depth) 1 = .ok (.ofNat s.pushed.size) := by
  rw [Word.sub_eq_ok_iff, h.toNat_size, h.toNat_depth]
  rfl

/-- One frame more, and the depth is no word. -/
theorem depth_of_size_eq (h : s.pushed.size = UInt64.size - 1) : depth s = .error .overflow := by
  have hsize : s.pushed.size < UInt64.size := by rw [h]; decide
  rw [depth, Word.add, Word.toNat_length hsize, h]
  rfl

/-- The frame itself is always pushed, since its number is a word still. -/
theorem push_eq_noted (h : s.Fits) (frame : φ) :
    push s frame = do return (← depth (s.push frame), s.push frame) := by
  rw [push, Word.push_eq h.depth_lt]
  rfl

/-- A push does not trap if the depth after it fits. -/
theorem push_eq (h : s.Fits) {frame : φ} (hpush : (s.push frame).Fits) :
    push s frame = .ok (.ofNat (s.push frame).depth, s.push frame) := by
  rw [push_eq_noted h, depth_eq hpush]
  rfl

/-- The bound is sharp: with one frame more than fits, the depth to be noted traps. -/
theorem push_of_not_fits (h : s.Fits) {frame : φ} (hpush : ¬ (s.push frame).Fits) :
    push s frame = .error .overflow := by
  have hsize : (s.push frame).pushed.size = UInt64.size - 1 := by
    have hgrown : (s.push frame).pushed.size = s.pushed.size + 1 := Array.size_push frame
    unfold Stack.Fits at h hpush
    omega
  rw [push_eq_noted h, depth_of_size_eq hsize]
  rfl

/-- A pop does not trap, and reports the depth after it. -/
theorem pop_eq (h : s.Fits) : pop s =
    .ok (s.pop.1.map fun frame => (frame, .ofNat s.pop.2.depth), s.pop.2) := by
  have hrest := h.pop
  rw [pop]
  rcases hpop : s.pop with ⟨e | frame, rest⟩
  · rfl
  · rw [hpop] at hrest
    dsimp only
    rw [depth_eq hrest]
    rfl

/-- One is subtracted from an index only if it is not zero, so that this never traps. -/
theorem sub_one_eq {index : UInt64} (h : index ≠ 0) :
    ∃ i : UInt64, Word.sub index 1 = .ok i ∧ index.toNat = i.toNat + 1 := by
  have hpos : 0 < index.toNat := by
    rw [Nat.pos_iff_ne_zero]
    exact fun hzero => h (UInt64.toNat_inj.mp hzero)
  have hi : (UInt64.ofNat (index.toNat - 1)).toNat = index.toNat - 1 :=
    UInt64.toNat_ofNat_of_lt' (Nat.lt_of_le_of_lt (Nat.sub_le _ _) index.toNat_lt)
  refine ⟨.ofNat (index.toNat - 1), Word.sub_eq_ok_iff.mpr ?_, ?_⟩
  · rw [hi]
    exact Nat.sub_add_cancel hpos
  · rw [hi]
    exact (Nat.sub_add_cancel hpos).symm

/-- The frame with an index is found on every stack. -/
theorem frame?_eq (s : Stack φ) (index : UInt64) : frame? s index = .ok (s.frame? index.toNat) := by
  rw [frame?]
  by_cases h : index = 0
  · rw [if_pos h, h]
    rfl
  · rcases sub_one_eq h with ⟨i, hi, hindex⟩
    rw [if_neg h, hi, hindex]
    rfl

/-- Changing a frame by its index does not trap, whatever the index. -/
theorem modifyFrame_eq (s : Stack φ) (index : UInt64) (f : φ → α × φ) :
    modifyFrame s index f = .ok (s.modifyFrame index.toNat f) := by
  rw [modifyFrame]
  by_cases h : index = 0
  · rw [if_pos h, h]
    rfl
  · rcases sub_one_eq h with ⟨i, hi, hindex⟩
    rw [if_neg h, hi, hindex, Stack.modifyFrame, Stack.frame?]
    change (match s.pushed[i.toNat]? with | some _ => _ | none => _) = _
    cases s.pushed[i.toNat]? <;> rfl

/-! ## Walks -/

/-- Where a walk below an index begins is not changed by writing it as a word. -/
theorem toNat_region (h : s.Fits) (index : UInt64) :
    (UInt64.ofNat (min index.toNat s.depth)).toNat = min index.toNat s.depth :=
  UInt64.toNat_ofNat_of_lt' (Nat.lt_of_le_of_lt (Nat.min_le_right _ _) h.depth_lt)

/-- A walk below an index slices no more pushed frames than there are. -/
theorem region_eq (h : s.Fits) (index : UInt64) :
    region s index = .ok (.ofNat (min index.toNat s.depth),
      s.pushed.extract 0 (min index.toNat s.depth - 1)) := by
  have hlast := toNat_region h index
  have hmin : min index (.ofNat s.depth) = UInt64.ofNat (min index.toNat s.depth) := by
    rw [← UInt64.toNat_inj, UInt64.toNat_min, h.toNat_depth, hlast]
  have hstop : (Word.subOrZero (.ofNat (min index.toNat s.depth)) 1).toNat =
      min index.toNat s.depth - 1 := by
    rw [Word.toNat_subOrZero, hlast]
    rfl
  have hslice : Word.sliceTo s.pushed (Word.subOrZero (.ofNat (min index.toNat s.depth)) 1) =
      .ok (s.pushed.extract 0 (min index.toNat s.depth - 1)) := by
    rw [Word.sliceTo_eq h.size_lt, hstop]
    rw [hstop]
    exact Nat.sub_le_of_le_add (Nat.min_le_right _ _)
  rw [region, depth_eq h]
  change (do return (min index (.ofNat s.depth), ← Word.sliceTo _ (Word.subOrZero (min index _) 1))
    : Except Trap _) = _
  rw [hmin, hslice]
  rfl

/-- What is done with the region of a walk is done with as many frames as the walk visits. -/
theorem region_bind (h : s.Fits) (index : UInt64) (f : Nat → β) :
    (do let (last, _) ← region s index; return f last.toNat : Except Trap β) =
      .ok (f (min index.toNat s.depth)) := by
  rw [region_eq h]
  exact congrArg (fun last => Except.ok (f last)) (toNat_region h index)

/-- Walking below an index does not trap. -/
theorem below_eq (h : s.Fits) (index : UInt64) : below s index = .ok (s.below index.toNat) := by
  have hpos : 0 < UInt64.ofNat (min index.toNat s.depth) ↔ 0 < index.toNat := by
    rw [UInt64.lt_iff_toNat_lt, toNat_region h]
    exact Nat.lt_min.trans (and_iff_left s.depth_pos)
  rw [below, region_eq h, ← Stack.below_min_depth]
  change Except.ok (_ ++ if 0 < _ then _ else _) = _
  simp only [hpos]
  cases hindex : index.toNat with
  | zero => simp
  | succ n =>
      have hmin : min (n + 1) s.depth = min n s.pushed.size + 1 := Nat.succ_min_succ n s.pushed.size
      simp [hmin, Stack.below]

/-- Walking over all frames does not trap. -/
theorem fromTop_eq (h : s.Fits) : fromTop s = .ok s.fromTop := by
  have hbelow := below_eq h (.ofNat s.depth)
  rw [h.toNat_depth] at hbelow
  rw [fromTop, depth_eq h]
  exact hbelow

/-- Taking some steps of a walk does not trap. -/
theorem takeBelow_eq (h : s.Fits) (index : UInt64) (limit : Nat) :
    takeBelow s index limit = .ok (s.takeBelow index.toNat limit) :=
  region_bind h index (s.takeAmong limit)

/-- Changing the frames of a walk one by one does not trap. -/
theorem changeWhileBelow_eq (h : s.Fits) (index : UInt64) (step : σ → φ → Option (φ × σ))
    (state : σ) :
    changeWhileBelow s index step state = .ok (s.changeWhileBelow index.toNat step state) :=
  region_bind h index fun n => Stack.changeWhileAmong step n s state

/-! ## Searches -/

/--
The frames that a search has passed are counted without a trap, and the last of them, the one that
is accepted and the frames after it are all frames of the walk.
-/
theorem countUntil_eq (accepts : σ → φ → Bool × σ) {frames : List φ} {offset : UInt64}
    (h : offset.toNat + frames.length < UInt64.size) (state : σ) :
    ∃ found, countUntil accepts frames offset state =
        .ok (found, (Stack.Plain.search accepts frames state).2) ∧
      match found, (Stack.Plain.search accepts frames state).1 with
      | some passed, some after => passed.toNat + (after + 1) = offset.toNat + frames.length
      | none, none => True
      | _, _ => False := by
  -- The offset grows as the walk shrinks, so that their sum stays the number of frames.
  induction frames generalizing offset state with
  | nil => exact ⟨none, rfl, trivial⟩
  | cons frame rest ih =>
      rw [List.length_cons] at h ⊢
      rw [countUntil, Stack.Plain.search]
      rcases accepts state frame with ⟨_ | _, state⟩
      · have hnext : (UInt64.ofNat (offset.toNat + 1)).toNat = offset.toNat + 1 :=
          UInt64.toNat_ofNat_of_lt' (by omega)
        have hadd : Word.add offset 1 = .ok (.ofNat (offset.toNat + 1)) :=
          Word.add_eq_ok_iff.mpr hnext
        have hrest : (UInt64.ofNat (offset.toNat + 1)).toNat + rest.length < UInt64.size := by omega
        rcases ih hrest state with ⟨found, heq, hfound⟩
        rw [hnext, Nat.add_right_comm] at hfound
        dsimp only
        rw [hadd]
        exact ⟨found, heq, hfound⟩
      · exact ⟨some offset, rfl, rfl⟩

/-- From the current frame on, there is a word for the number of frames that are passed. -/
theorem countUntil_fromTop (h : s.Fits) (accepts : σ → φ → Bool × σ) (state : σ) :
    ∃ found, countUntil accepts s.fromTop 0 state =
        .ok (found, (Stack.Plain.search accepts s.fromTop state).2) ∧
      match found, (Stack.Plain.search accepts s.fromTop state).1 with
      | some passed, some after => passed.toNat + (after + 1) = s.depth
      | none, none => True
      | _, _ => False := by
  have hlength : (0 : UInt64).toNat + s.fromTop.length = s.depth := by
    rw [Stack.length_fromTop]
    exact Nat.zero_add _
  have hcount := countUntil_eq accepts (Nat.lt_of_le_of_lt (Nat.le_of_eq hlength) h.depth_lt) state
  rwa [hlength] at hcount

/-- A search passes fewer frames than there are. -/
theorem offset_le (h : s.Fits) {accepts : σ → φ → Bool × σ} {state last : σ} {offset : UInt64}
    (hfound : countUntil accepts s.fromTop 0 state = .ok (some offset, last)) :
    offset.toNat ≤ s.pushed.size := by
  rcases countUntil_fromTop h accepts state with ⟨found, heq, hpassed⟩
  rw [heq, Except.ok.injEq, Prod.mk.injEq] at hfound
  rw [hfound.1] at hpassed
  cases hsearch : (Stack.Plain.search accepts s.fromTop state).1 with
  | none =>
      rw [hsearch] at hpassed
      exact hpassed.elim
  | some after =>
      rw [hsearch] at hpassed
      change offset.toNat + (after + 1) = s.pushed.size + 1 at hpassed
      omega

/-- The search over all frames is that of the list of frames from the top. -/
theorem searchAmong_depth (s : Stack φ) (accepts : σ → φ → Bool × σ) (state : σ) :
    s.positionWith accepts state = Stack.Plain.search accepts s.fromTop state :=
  Stack.searchAmong_eq_search s accepts (Nat.le_refl _) state

/-- A search on a machine comes to the index that it comes to with natural numbers. -/
theorem positionWith_eq (h : s.Fits) (accepts : σ → φ → Bool × σ) (state : σ) :
    positionWith s accepts state =
      .ok ((s.positionWith accepts state).map (Option.map UInt64.ofNat) id) := by
  rcases countUntil_fromTop h accepts state with ⟨found, hcount, hpassed⟩
  rw [positionWith, depth_eq h, fromTop_eq h, searchAmong_depth]
  change (do
    let top ← Word.sub (.ofNat s.depth) 1
    match ← countUntil accepts s.fromTop 0 state with
    | (some offset, state) => return (some (← Word.sub top offset), state)
    | (none, state) => return (none, state) : Except Trap _) = _
  rw [sub_depth_eq h, hcount]
  rcases hsearch : Stack.Plain.search accepts s.fromTop state with ⟨_ | after, last⟩ <;>
    rw [hsearch] at hpassed <;> rcases found with _ | offset
  · rfl
  · exact hpassed.elim
  · exact hpassed.elim
  · have hindex : offset.toNat + (after + 1) = s.pushed.size + 1 := hpassed
    have hle : after ≤ s.pushed.size := by omega
    have hafter : (UInt64.ofNat after).toNat = after :=
      UInt64.toNat_ofNat_of_lt' (Nat.lt_of_le_of_lt hle h.size_lt)
    have hdifference : Word.sub (.ofNat s.pushed.size) offset = .ok (.ofNat after) := by
      rw [Word.sub_eq_ok_iff, h.toNat_size, hafter]
      omega
    change (do return (some (← Word.sub (.ofNat s.pushed.size) offset), last) : Except Trap _) = _
    rw [hdifference]
    rfl

/-- Searching for a frame does not trap, and its index fits into a word. -/
theorem position_eq (h : s.Fits) (accepts : φ → Bool) :
    position s accepts = .ok ((s.position accepts).map .ofNat) := by
  rw [position, positionWith_eq h]
  rfl

/-- The index that a search comes to is that of a frame. -/
theorem position_lt {accepts : σ → φ → Bool × σ} {state last : σ} {index : Nat}
    (hfound : s.positionWith accepts state = (some index, last)) : index < s.depth := by
  rw [searchAmong_depth] at hfound
  rw [← Stack.length_fromTop]
  generalize s.fromTop = frames at hfound
  induction frames generalizing state with
  | nil => cases hfound
  | cons frame rest ih =>
      rw [Stack.Plain.search] at hfound
      rcases haccepts : accepts state frame with ⟨_ | _, state⟩ <;> rw [haccepts] at hfound
      · exact Nat.lt_succ_of_lt (ih hfound)
      · cases hfound
        exact Nat.lt_succ_self rest.length

end Basic

/-- What a machine computes on the way to a frame stays in its bounds. -/
structure StaysInBounds (s : Stack φ) : Prop where
  depth : ∃ d, Checked.depth s = .ok d ∧ d.toNat = s.depth
  /-- One is subtracted from an index that is not zero, in order to look among the pushed frames. -/
  pred : ∀ index : UInt64, index ≠ 0 → ∃ i, Word.sub index 1 = .ok i ∧ index.toNat = i.toNat + 1
  frame? : ∀ index, Checked.frame? s index = .ok (s.frame? index.toNat)
  modifyFrame : ∀ {α : Type} (index : UInt64) (f : φ → α × φ),
    Checked.modifyFrame s index f = .ok (s.modifyFrame index.toNat f)
  /-- No slice is longer than the pushed frames. -/
  slice : ∀ index, ∃ last slice, region s index = .ok (last, slice) ∧
    last.toNat = min index.toNat s.depth ∧ (Word.subOrZero last 1).toNat ≤ s.pushed.size
  below : ∀ index, Checked.below s index = .ok (s.below index.toNat)
  changeWhileBelow : ∀ {σ : Type} (index : UInt64) (step : σ → φ → Option (φ × σ)) (state : σ),
    Checked.changeWhileBelow s index step state = .ok (s.changeWhileBelow index.toNat step state)
  /-- The index of the current frame is the depth less one. -/
  top : ∃ top, (do Word.sub (← Checked.depth s) 1) = .ok top ∧ top.toNat = s.pushed.size
  /-- No search passes as many frames as there are. -/
  offset : ∀ {σ : Type} (accepts : σ → φ → Bool × σ) (state last : σ) (offset : UInt64),
    countUntil accepts s.fromTop 0 state = .ok (some offset, last) → offset.toNat ≤ s.pushed.size
  /-- A search is done, and the index that it comes to is that of a frame. -/
  position : ∀ {σ : Type} (accepts : σ → φ → Bool × σ) (state : σ), ∃ found last,
    positionWith s accepts state = .ok (found, last) ∧
      (found.map UInt64.toNat, last) = s.positionWith accepts state ∧
        ∀ index, found = some index → index.toNat < s.depth

/-- The index that a search finds is not changed by writing it as a word. -/
theorem toNat_ofNat_position {s : Stack φ} (h : s.Fits) (accepts : σ → φ → Bool × σ) (state : σ) :
    ((s.positionWith accepts state).1.map UInt64.ofNat).map UInt64.toNat =
      (s.positionWith accepts state).1 := by
  rcases hfound : s.positionWith accepts state with ⟨_ | index, last⟩
  · rfl
  · have hindex := Nat.lt_trans (position_lt hfound) h.depth_lt
    exact congrArg some (UInt64.toNat_ofNat_of_lt' hindex)

/-- Every operation on a stack whose depth fits stays in the bounds of its arrays. -/
theorem staysInBounds {s : Stack φ} (h : s.Fits) : StaysInBounds s where
  depth := ⟨_, depth_eq h, h.toNat_depth⟩
  pred _ := sub_one_eq
  frame? := frame?_eq s
  modifyFrame := modifyFrame_eq s
  slice index := by
    refine ⟨_, _, region_eq h index, toNat_region h index, ?_⟩
    rw [Word.toNat_subOrZero, toNat_region h]
    exact Nat.sub_le_of_le_add (Nat.min_le_right _ _)
  below := below_eq h
  changeWhileBelow := changeWhileBelow_eq h
  top := by
    refine ⟨.ofNat s.pushed.size, ?_, h.toNat_size⟩
    rw [depth_eq h]
    exact sub_depth_eq h
  offset _ _ _ _ := offset_le h
  position accepts state := by
    refine ⟨_, _, positionWith_eq h accepts state, ?_, ?_⟩
    · exact Prod.ext (toNat_ofNat_position h accepts state) rfl
    · intro index (hindex : (s.positionWith accepts state).1.map UInt64.ofNat = some index)
      have hfound := toNat_ofNat_position h accepts state
      rw [hindex] at hfound
      exact position_lt (Prod.ext hfound.symm rfl)

/-! ## All operations, and clients of a stack -/

/-- The index that an operation is given is a word. -/
def WordIndexed : Stack.Operation φ α → Prop
  | .frameAt index => index < UInt64.size
  | .changeAt index _ => index < UInt64.size
  | .framesBelow index => index < UInt64.size
  | .takeBelow index _ => index < UInt64.size
  | .changeBelow index _ _ => index < UInt64.size
  | _ => True

/-- What an operation answers on a machine, and the stack after it. -/
def perform : Stack.Operation φ α → Stack φ → Except Trap (α × Stack φ)
  | .depth, s => do return ((← depth s).toNat, s)
  | .push frame, s => do return ((), (← push s frame).2)
  | .pop, s => do
    let (outcome, rest) ← pop s
    return (outcome.map Prod.fst, rest)
  | .root, s => return (s.root, s)
  | .top, s => return (s.top, s)
  | .topIsRoot, s => return (s.topIsRoot, s)
  | .changeTop f, s => return s.modifyTop f
  | .frameAt index, s => do return (← frame? s (.ofNat index), s)
  | .changeAt index f, s => modifyFrame s (.ofNat index) f
  | .frames, s => do return (← fromTop s, s)
  | .framesBelow index, s => do return (← below s (.ofNat index), s)
  | .takeBelow index limit, s => do return (← takeBelow s (.ofNat index) limit, s)
  | .changeBelow index step state, s => changeWhileBelow s (.ofNat index) step state
  | .position accepts state, s => do
    let (index, state) ← positionWith s accepts state
    return ((index.map UInt64.toNat, state), s)
  | .listing, s => return (s.toList, s)

/-- No operation traps, and all do what they do with natural numbers. -/
theorem perform_eq {operation : Stack.Operation φ α} {s : Stack φ} (h : s.Fits)
    (hafter : (operation.perform s).2.Fits) (hindex : WordIndexed operation) :
    perform operation s = .ok (operation.perform s) := by
  cases operation with
  | depth =>
      rw [perform, depth_eq h]
      exact congrArg (fun n => Except.ok (n, s)) h.toNat_depth
  | push frame =>
      rw [perform, push_eq h hafter]
      rfl
  | pop =>
      rw [perform, pop_eq h]
      change Except.ok (_, s.pop.2) = Except.ok s.pop
      rcases s.pop with ⟨_ | frame, rest⟩ <;> rfl
  | frameAt index =>
      rw [perform, frame?_eq, UInt64.toNat_ofNat_of_lt' hindex]
      rfl
  | changeAt index f =>
      rw [perform, modifyFrame_eq, UInt64.toNat_ofNat_of_lt' hindex]
      rfl
  | frames =>
      rw [perform, fromTop_eq h]
      rfl
  | framesBelow index =>
      rw [perform, below_eq h, UInt64.toNat_ofNat_of_lt' hindex]
      rfl
  | takeBelow index limit =>
      rw [perform, takeBelow_eq h, UInt64.toNat_ofNat_of_lt' hindex]
      rfl
  | changeBelow index step state =>
      rw [perform, changeWhileBelow_eq h, UInt64.toNat_ofNat_of_lt' hindex]
      rfl
  | position accepts state =>
      rw [perform, positionWith_eq h]
      refine congrArg (fun found => Except.ok (found, s)) (Prod.ext ?_ rfl)
      exact toNat_ofNat_position h accepts state
  | root | top | topIsRoot | changeTop | listing => rfl

/--
The stack that a client begins with and all stacks that it comes to fit, and all indexes that it
asks for are words.
-/
inductive Within : Stack.Client φ β → Stack φ → Prop where
  | done (result : β) {s : Stack φ} (h : s.Fits) : Within (.done result) s
  | ask {α : Type} {operation : Stack.Operation φ α} {next : α → Stack.Client φ β} {s : Stack φ}
      (h : s.Fits) (hindex : WordIndexed operation)
      (hnext : Within (next (operation.perform s).1) (operation.perform s).2) :
      Within (.ask operation next) s

/-- What a client results in on a machine, and the stack that it leaves. -/
def runClient : Stack.Client φ β → Stack φ → Except Trap (β × Stack φ)
  | .done result, s => return (result, s)
  | .ask operation next, s => do
    let (answer, s) ← perform operation s
    runClient (next answer) s

/-- If a client stays within the bounds, the depth fits at its start. -/
theorem Within.fits {client : Stack.Client φ β} {s : Stack φ} (h : Within client s) : s.Fits := by
  cases h with
  | done result h => exact h
  | ask h hindex hnext => exact h

/-- No client comes to a trap as long as the stacks fit. -/
theorem runClient_eq {client : Stack.Client φ β} {s : Stack φ} (h : Within client s) :
    runClient client s = .ok (client.run s) := by
  induction h with
  | done result h => rfl
  | ask h hindex hnext ih =>
      rw [runClient, perform_eq h hnext.fits hindex]
      exact ih

end Checked
end LexicalScope
