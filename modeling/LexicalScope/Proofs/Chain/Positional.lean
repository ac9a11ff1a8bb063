import LexicalScope.Key.CaseFolded
import LexicalScope.Proofs.Chain.Lookups
import LexicalScope.Proofs.Chain.Undo

/-!
# Operations by index and the current frame

Some operations reach a frame, or the frames below some index, without making any of
them the current frame.  The same can be had by popping the frames above, doing what is
to be done with the current frame of the chain that is left, and pushing the popped frames
back, the last one first.  Both ways answer alike and give the same chain, with the same
spelling of every key and the same hasher in every frame.

Main results:

- Theorem {lit}`Chain.putBack_lift`: frames that were popped and pushed back are where they were.
- Theorems {lit}`Chain.insertAt_putBack` and {lit}`Chain.changeBelow_putBack`: operations on lower
  frames do not meet those above.
- Theorem {lit}`Chain.positions_as_current`: operations by index are operations on the current
  frame of a chain whose upper frames are popped, for bindings and for names.
-/

namespace LexicalScope

/-! ## What a frame on top leaves alone -/

namespace Stack

universe u v

variable {φ : Type u} {α : Type v}

/-- A walk below an index does not meet a frame that is pushed above it. -/
theorem below_push (s : Stack φ) (top : φ) {x : Nat} (hx : x ≤ s.depth) :
    (s.push top).below x = s.below x := by
  rw [below_eq_reverse_take, below_eq_reverse_take, toList_push, List.take_append_of_le_length]
  rwa [length_toList]

/-- Nor does a change of the first frame that answers. -/
theorem changeFirstAmong_push (s : Stack φ) (top : φ) (f : φ → Option (α × φ)) {n : Nat}
    (hn : n ≤ s.depth) :
    (s.push top).changeFirstAmong f n = (s.changeFirstAmong f n).map id fun s => s.push top := by
  induction n with
  | zero => rfl
  | succ n ih =>
      rw [changeFirstAmong, changeFirstAmong, s.frame?_push_of_lt top hn, ih (by omega)]
      cases (s.frame? n).bind f with
      | none => rfl
      | some found => exact congrArg (Prod.mk _) (s.setFrame_push top hn found.2)

end Stack

variable {ε κ ν : Type} [BEq κ]

/-! ## Popping frames and pushing them back -/

namespace Chain

section Keyed

variable [Entry ε κ]

/-- Pops the given number of frames, and hands them out in the order in which they were popped. -/
def lift : Nat → Chain ε → List (Frame ε) × Chain ε
  | 0, c => ([], c)
  | n + 1, c =>
    match c.pop with
    | (.ok frame, rest) => (frame :: (lift n rest).1, (lift n rest).2)
    | (.error _, rest) => ([], rest)

/-- Pushes frames back that were popped in the given order, the one that was popped last first. -/
def putBack (popped : List (Frame ε)) (c : Chain ε) : Chain ε :=
  popped.foldr (fun frame c => c.pushFrame frame) c

theorem putBack_cons (frame : Frame ε) (popped : List (Frame ε)) (c : Chain ε) :
    putBack (frame :: popped) c = (putBack popped c).pushFrame frame :=
  rfl

/-- Pushing frames back makes the chain deeper by their number. -/
theorem depth_putBack (popped : List (Frame ε)) (c : Chain ε) :
    (putBack popped c).depth = c.depth + popped.length := by
  induction popped with
  | nil => rfl
  | cons frame popped ih =>
      rw [putBack_cons, depth_pushFrame, ih, List.length_cons]
      omega

/-- Pushing frames back does not make the chain less deep. -/
theorem le_depth_putBack (popped : List (Frame ε)) (c : Chain ε) :
    c.depth ≤ (putBack popped c).depth := by
  rw [depth_putBack]
  omega

/-- Frames that were popped and are pushed back are where they were. -/
theorem putBack_lift (n : Nat) (c : Chain ε) : putBack (c.lift n).1 (c.lift n).2 = c := by
  induction n generalizing c with
  | zero => rfl
  | succ n ih =>
      rw [lift]
      rcases hpop : c.pop with ⟨_ | frame, rest⟩
      · exact eq_of_pop_error hpop
      · rw [← pushFrame_of_pop hpop]
        exact congrArg (fun c => c.pushFrame frame) (ih rest)

/-- All frames but the root can be popped. -/
theorem length_lift {n : Nat} {c : Chain ε} (hn : n < c.depth) : (c.lift n).1.length = n := by
  induction n generalizing c with
  | zero => rfl
  | succ n ih =>
      rw [lift]
      rcases hpop : c.pop with ⟨_ | frame, rest⟩
      · have hone : c.depth = 1 :=
          ((c.stack.pop_fst_eq_error_iff _).mp (congrArg Prod.fst hpop)).1
        omega
      · have hdepth := rest.depth_pushFrame frame
        rw [pushFrame_of_pop hpop] at hdepth
        exact congrArg Nat.succ (ih (by omega))

/-- Popping frames above the root makes the chain less deep by their number. -/
theorem depth_lift {n : Nat} {c : Chain ε} (hn : n < c.depth) :
    (c.lift n).2.depth = c.depth - n := by
  have hdepth := depth_putBack (c.lift n).1 (c.lift n).2
  rw [putBack_lift, length_lift hn] at hdepth
  omega

/-! ## Operations on the frames below -/

section Below

variable (popped : List (Frame ε)) (c : Chain ε)

/-- The frames that are not popped stay where they are. -/
theorem frame?_putBack {i : Nat} (hi : i < c.depth) :
    (putBack popped c).stack.frame? i = c.stack.frame? i := by
  induction popped with
  | nil => rfl
  | cons frame popped ih =>
      have hi' := Nat.lt_of_lt_of_le hi (le_depth_putBack popped c)
      exact ((putBack popped c).stack.frame?_push_of_lt frame hi').trans ih

/-- The walk below an index does not visit frames above it. -/
theorem below_putBack {x : Nat} (hx : x ≤ c.depth) :
    (putBack popped c).stack.below x = c.stack.below x := by
  induction popped with
  | nil => rfl
  | cons frame popped ih =>
      have hx' := Nat.le_trans hx (le_depth_putBack popped c)
      exact ((putBack popped c).stack.below_push frame hx').trans ih

/-- A frame can be replaced before or after the frames above it are pushed back. -/
theorem setFrame_putBack {i : Nat} (hi : i < c.depth) (frame : Frame ε) :
    (putBack popped c).setFrame i frame = putBack popped (c.setFrame i frame) := by
  induction popped with
  | nil => rfl
  | cons top popped ih =>
      have hi' := Nat.lt_of_lt_of_le hi (le_depth_putBack popped c)
      rw [putBack_cons, setFrame_pushFrame _ hi', ih, putBack_cons]

/-- Whether a frame holds a key does not depend on the frames above it. -/
theorem hasAt_putBack {i : Nat} (hi : i < c.depth) (k : κ) :
    (putBack popped c).hasAt i k = c.hasAt i k := by
  rw [hasAt, frame?_putBack popped c hi, hasAt]

/-- Inserting by index can be done before or after the frames above are pushed back. -/
theorem insertAt_putBack {i : Nat} (hi : i < c.depth) (e : ε) :
    (putBack popped c).insertAt i e = (c.insertAt i e).map id (putBack popped) := by
  rcases c.stack.exists_frame? hi with ⟨frame, hframe⟩
  have hframe' := frame?_putBack popped c hi
  rw [hframe] at hframe'
  rw [insertAt_of_frame? hframe, insertAt_of_frame? hframe', setFrame_putBack popped c hi]
  rfl

/-- A change below an index does not notice a frame that is pushed above it. -/
theorem changeBelow_pushFrame (frame : Frame ε) {x : Nat} (hx : x ≤ c.depth)
    (change : Frame ε → Option (ε × Frame ε)) :
    (c.pushFrame frame).changeBelow x change =
      (c.changeBelow x change).map id fun c => c.pushFrame frame := by
  have hmin : min x c.stack.depth = x := Nat.min_eq_left hx
  have hmin' : min x (c.stack.push frame).depth = x := by
    rw [Stack.depth_push]
    exact Nat.min_eq_left (Nat.le_succ_of_le hx)
  rw [changeBelow, changeBelow, Stack.changeFirstBelow, Stack.changeFirstBelow, hmin, pushFrame,
    hmin', Stack.changeFirstAmong_push _ _ _ hx]
  rcases c.stack.changeFirstAmong change x with ⟨_ | e, stack⟩ <;> rfl

/-- A change below an index can be made before or after the frames above are pushed back. -/
theorem changeBelow_putBack {x : Nat} (hx : x ≤ c.depth)
    (change : Frame ε → Option (ε × Frame ε)) :
    (putBack popped c).changeBelow x change = (c.changeBelow x change).map id (putBack popped) := by
  induction popped with
  | nil => rfl
  | cons frame popped ih =>
      have hx' := Nat.le_trans hx (le_depth_putBack popped c)
      rw [putBack_cons, changeBelow_pushFrame _ frame hx', ih]
      rfl

end Below

/-! ## The frame with an index as the current one -/

section Current

variable (c : Chain ε)

/-- The frames above the one with an index, in the order in which they are popped. -/
def above (index : Nat) : List (Frame ε) :=
  (c.lift (c.depth - 1 - index)).1

/-- The chain whose current frame is the one with an index, all frames above it popped. -/
def upTo (index : Nat) : Chain ε :=
  (c.lift (c.depth - 1 - index)).2

/-- Popping the frames above an index and pushing them back changes nothing. -/
theorem putBack_above (i : Nat) : putBack (c.above i) (c.upTo i) = c :=
  putBack_lift _ c

/-- The current frame of the chain up to an index is the one with that index. -/
theorem depth_upTo {i : Nat} (hi : i < c.depth) : (c.upTo i).depth = i + 1 := by
  rw [upTo, depth_lift (by omega)]
  omega

/-- Below a positive index are the frames up to the one before it, or up to the current one. -/
theorem depth_upTo_pred {x : Nat} (hx : 0 < x) :
    (c.upTo (min x c.depth - 1)).depth = min x c.depth := by
  have hpos : 0 < c.depth := c.stack.depth_pos
  rw [depth_upTo c (by omega)]
  omega

/-- What is inserted by index is inserted into the current frame of the chain up to the index. -/
theorem insertAt_eq_insert {i : Nat} (hi : i < c.depth) (e : ε) :
    c.insertAt i e = ((c.upTo i).insert e).map Except.ok (putBack (c.above i)) := by
  have hdepth := c.depth_upTo hi
  have htop : (c.upTo i).stack.frame? i = some (c.upTo i).stack.top := by
    rw [← frame?_top, hdepth]
    rfl
  calc c.insertAt i e = (putBack (c.above i) (c.upTo i)).insertAt i e := by rw [putBack_above]
    _ = ((c.upTo i).insertAt i e).map id (putBack (c.above i)) :=
      insertAt_putBack _ _ (by omega) e
    _ = ((c.upTo i).insert e).map Except.ok (putBack (c.above i)) := by
      rw [insertAt_of_frame? htop, insert_eq, hdepth]
      rfl

/-- Asking a frame by its index is asking it when it is the current one. -/
theorem hasAt_eq_hasLocal {i : Nat} (hi : i < c.depth) (k : κ) :
    c.hasAt i k = (c.upTo i).hasLocal k := by
  have hdepth := c.depth_upTo hi
  calc c.hasAt i k = (putBack (c.above i) (c.upTo i)).hasAt i k := by rw [putBack_above]
    _ = (c.upTo i).hasAt i k := hasAt_putBack _ _ (by omega) k
    _ = (c.upTo i).hasLocal k := by
      rw [hasLocal_eq_hasAt, hdepth]
      rfl

/-- The walk below an index is the walk from the current frame of the chain up to the index. -/
theorem below_eq_fromTop {x : Nat} (hx : 0 < x) :
    c.stack.below x = (c.upTo (min x c.depth - 1)).stack.fromTop := by
  have hdepth := c.depth_upTo_pred hx
  have hback := c.putBack_above (min x c.depth - 1)
  generalize c.above (min x c.depth - 1) = popped at hback
  generalize c.upTo (min x c.depth - 1) = inner at hdepth hback
  calc c.stack.below x = c.stack.below inner.depth := by
        rw [hdepth]
        exact (c.stack.below_min_depth x).symm
    _ = (putBack popped inner).stack.below inner.depth := by rw [hback]
    _ = inner.stack.fromTop := below_putBack popped inner (Nat.le_refl _)

/-- Looking up below an index is looking up when the frame before it is the current one. -/
theorem lookupBelow_eq_lookup {x : Nat} (hx : 0 < x) (k : κ) :
    c.lookupBelow x k = (c.upTo (min x c.depth - 1)).lookup k := by
  rw [lookupBelow_eq, c.below_eq_fromTop hx, lookup, lookupBelow_eq]
  rfl

theorem lookupBelow_zero (k : κ) : c.lookupBelow 0 k = .error .keyNotFound := by
  rw [lookupBelow_eq, Stack.below_zero]
  rfl

/-- An index past the depth is as good as the depth. -/
theorem changeBelow_min_depth (x : Nat) (change : Frame ε → Option (ε × Frame ε)) :
    c.changeBelow (min x c.depth) change = c.changeBelow x change := by
  have hmin : min (min x c.depth) c.stack.depth = min x c.stack.depth :=
    Nat.min_eq_left (Nat.min_le_right _ _)
  rw [changeBelow, changeBelow, Stack.changeFirstBelow, Stack.changeFirstBelow, hmin]

/-- A change below an index is made in the chain up to the index. -/
theorem changeBelow_eq_change {x : Nat} (hx : 0 < x) (change : Frame ε → Option (ε × Frame ε)) :
    c.changeBelow x change =
      ((c.upTo (min x c.depth - 1)).changeBelow (c.upTo (min x c.depth - 1)).depth change).map id
        (putBack (c.above (min x c.depth - 1))) := by
  have hdepth := c.depth_upTo_pred hx
  have hback := c.putBack_above (min x c.depth - 1)
  generalize c.above (min x c.depth - 1) = popped at hback
  generalize c.upTo (min x c.depth - 1) = inner at hdepth hback
  calc c.changeBelow x change = c.changeBelow inner.depth change := by
        rw [hdepth, changeBelow_min_depth]
    _ = (putBack popped inner).changeBelow inner.depth change := by rw [hback]
    _ = (inner.changeBelow inner.depth change).map id (putBack popped) :=
      changeBelow_putBack popped inner (Nat.le_refl _) change

/-! ## What holds for both kinds of chains -/

/-- Popping frames until the one with an index is the current one, and pushing them back. -/
structure Lifted (i : Nat) : Prop where
  length : (c.above i).length = c.depth - 1 - i
  depth : (c.upTo i).depth = i + 1
  putBack : putBack (c.above i) (c.upTo i) = c
  /-- The frame with the index holds what the current frame of the chain up to it holds. -/
  hasAt : ∀ k, c.hasAt i k = (c.upTo i).hasLocal k

/-- The frames above an index can be popped and pushed back. -/
theorem lifted {i : Nat} (hi : i < c.depth) : c.Lifted i where
  length := length_lift (by omega)
  depth := c.depth_upTo hi
  putBack := c.putBack_above i
  hasAt := c.hasAt_eq_hasLocal hi

end Current

end Keyed
end Chain

/-! ## Chains of bindings -/

namespace Bindings

variable [BEq ν] (c : Bindings κ ν)

/-- Declaring by index is declaring in the current frame of the chain up to the index. -/
structure AtAsCurrent (i : Nat) : Prop extends Chain.Lifted c i where
  declareAt : ∀ k v, c.declareAt i k v =
    (.ok (declare (c.upTo i) k v).1, Chain.putBack (c.above i) (declare (c.upTo i) k v).2)

/--
Below an index, the chain is read and written as one whose current frame is the one before
the index.  An index past the depth is one more than that of the current frame.
-/
structure BelowAsCurrent (x : Nat) : Prop where
  frames : c.stack.below x = (c.upTo (min x c.depth - 1)).stack.fromTop
  getBelow : ∀ k, c.getBelow x k = get (c.upTo (min x c.depth - 1)) k
  assignBelow : ∀ k v, (c.modifyBelow x k fun _ => v) =
    ((assign (c.upTo (min x c.depth - 1)) k v).1,
      Chain.putBack (c.above (min x c.depth - 1)) (assign (c.upTo (min x c.depth - 1)) k v).2)

/-- Declaring by index is declaring in the current frame of the chain up to the index. -/
theorem atAsCurrent {i : Nat} (hi : i < c.depth) : AtAsCurrent c i where
  toLifted := c.lifted hi
  declareAt := by
    intro k v
    rw [Bindings.declareAt, c.insertAt_eq_insert hi]
    rfl

/-- Reading and writing below an index is doing so in the chain up to the frame before it. -/
theorem belowAsCurrent {x : Nat} (hx : 0 < x) : BelowAsCurrent c x where
  frames := c.below_eq_fromTop hx
  getBelow := by
    intro k
    rw [Bindings.getBelow, c.lookupBelow_eq_lookup hx]
    rfl
  assignBelow := by
    intro k v
    rw [Bindings.modifyBelow, c.changeBelow_eq_change hx]
    rfl

theorem getBelow_zero (k : κ) : c.getBelow 0 k = .error .keyNotFound := by
  rw [Bindings.getBelow, c.lookupBelow_zero]
  rfl

end Bindings

/-! ## Chains of names -/

namespace Names

variable (c : Names κ)

/-- Adding by index is adding to the current frame of the chain up to the index. -/
structure AtAsCurrent (i : Nat) : Prop extends Chain.Lifted c i where
  addAt : ∀ k, c.addAt i k =
    (.ok (add (c.upTo i) k).1, Chain.putBack (c.above i) (add (c.upTo i) k).2)

/-- Adding by index is adding to the current frame of the chain up to the index. -/
theorem atAsCurrent {i : Nat} (hi : i < c.depth) : AtAsCurrent c i where
  toLifted := c.lifted hi
  addAt := by
    intro k
    rw [Names.addAt, c.insertAt_eq_insert hi]
    rfl

end Names

/-! ## Both kinds of chains -/

namespace Chain

/--
In every chain of bindings and in every chain of names, an operation by index is the same
operation on the current frame of the chain that is left when the frames above are popped:
it answers the same, and gives the same chain once these frames are pushed back.
-/
theorem positions_as_current [BEq ν] :
    (∀ c : Bindings κ ν, (∀ i < c.depth, c.AtAsCurrent i) ∧ (∀ x, 0 < x → c.BelowAsCurrent x) ∧
      ∀ k, c.getBelow 0 k = .error .keyNotFound) ∧
    (∀ c : Names κ, (∀ i < c.depth, c.AtAsCurrent i) ∧
      ∀ x, 0 < x → c.stack.below x = (c.upTo (min x c.depth - 1)).stack.fromTop) :=
  ⟨fun c => ⟨fun _ => c.atAsCurrent, fun _ => c.belowAsCurrent, c.getBelow_zero⟩,
    fun c => ⟨fun _ => c.atAsCurrent, fun _ => c.below_eq_fromTop⟩⟩

/-- A declaration in the middle of three frames, under a key that is stored in another spelling. -/
theorem positions_as_current_respelled :
    let upper : CaseFolded := ⟨"KEY", "key", by decide +kernel⟩
    let lower : CaseFolded := ⟨"key", "key", by decide +kernel⟩
    let c : Bindings CaseFolded Nat :=
      ((Chain.ofRoot (.ofList (.marked 4) [⟨lower, 1⟩])).pushFrame
        (.ofList (.marked 5) [⟨upper, 2⟩])).push
    c.AtAsCurrent 1 ∧ c.BelowAsCurrent 9 ∧ c.hashers = [.marked 4, .marked 5, .marked 4] ∧
      (c.declareAt 1 lower 3).1.toOption = some (some 2) ∧
      (c.declareAt 1 lower 3).2.hashers = c.hashers ∧
      ((c.declareAt 1 lower 3).2.getBelow 2 lower).toOption = some 3 ∧
      ((c.declareAt 1 lower 3).2.stack.frame? 1).map
        (fun frame => frame.entries.map fun b => b.key.spelling) = some ["KEY"] := by
  intro upper lower c
  have hat : c.AtAsCurrent 1 := (positions_as_current.1 c).1 1 (by decide +kernel)
  have hbelow : c.BelowAsCurrent 9 := (positions_as_current.1 c).2.1 9 (by decide)
  exact ⟨hat, hbelow, by decide +kernel, by decide +kernel, by decide +kernel, by decide +kernel,
    by decide +kernel⟩

end Chain
end LexicalScope
