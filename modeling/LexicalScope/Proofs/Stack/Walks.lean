import LexicalScope.Proofs.Stack.Plain

/-!
# Walks, frame by frame

A walk below an index has two parts.  First comes a slice of the frames above the root, cut off at
the index and reversed, and then the root, unless the index is zero.  Together they are the frames
of all lower indexes, from the highest of them down to zero, each visited once; how many are left is
known at every moment.

A walk that changes frames visits the same frames in the same order.  It hands them to a step one
after the other, and it may be left before it comes to the root; the frames that it did not come to
stay as they are.

Main results:

- Theorem {lit}`Stack.frames_walkBelow`: the two parts are the listing of the walk.
- Theorem {lit}`Stack.map_some_below`: the listing is the frames by their indexes.
- Theorem {lit}`Stack.changes_changeWhileBelow`: what a walk that changes frames does.
- Theorem {lit}`Stack.walksBelow`: all of this, for every stack and every index.
-/

namespace LexicalScope

/-- The hint of a sequence that is followed by another one. -/
def SizeHint.append (a b : SizeHint) : SizeHint :=
  ⟨a.lower + b.lower, a.upper.bind fun m => b.upper.map fun n => m + n⟩

/-- Two exact numbers add up to an exact number. -/
theorem SizeHint.append_exact (m n : Nat) : (exact m).append (exact n) = exact (m + n) :=
  rfl

namespace Stack

variable {φ σ : Type}

/-! ## Walks in progress -/

/-- What is left of a walk: frames above the root, innermost first, and then perhaps the root. -/
structure Walk (φ : Type) where
  pushed : List φ
  root : Option φ

namespace Walk

/-- The frames that are left, in the order of the walk. -/
def frames (w : Walk φ) : List φ :=
  w.pushed ++ w.root.toList

/-- The next frame, if one is left, and what is left after it. -/
def next : Walk φ → Option φ × Walk φ
  | ⟨frame :: rest, root⟩ => (some frame, ⟨rest, root⟩)
  | ⟨[], root⟩ => (root, ⟨[], none⟩)

/-- The next frames, as many as the limit allows, and what is left after them. -/
def take : Nat → Walk φ → List φ × Walk φ
  | 0, w => ([], w)
  | limit + 1, w =>
    match w.next with
    | (none, rest) => ([], rest)
    | (some frame, rest) => (take limit rest).map (fun frames => frame :: frames) id

/-- How many frames are left, from what each of the two parts says. -/
def sizeHint (w : Walk φ) : SizeHint :=
  (SizeHint.exact w.pushed.length).append (SizeHint.exact w.root.toList.length)

/-- A walk knows exactly how many frames are left. -/
theorem sizeHint_eq (w : Walk φ) : w.sizeHint = .exact w.frames.length := by
  rw [sizeHint, SizeHint.append_exact, frames, List.length_append]

/-- The next frame is the first of those that are left, and the others stay. -/
theorem next_eq (w : Walk φ) :
    w.next.1 = w.frames.head? ∧ w.next.2.frames = w.frames.tail := by
  rcases w with ⟨_ | ⟨frame, rest⟩, _ | root⟩ <;> exact ⟨rfl, rfl⟩

/-- Several steps show as many of the frames that are left, and the others stay. -/
theorem take_eq (limit : Nat) (w : Walk φ) :
    (w.take limit).1 = w.frames.take limit ∧ (w.take limit).2.frames = w.frames.drop limit := by
  induction limit generalizing w with
  | zero => exact ⟨rfl, rfl⟩
  | succ limit ih =>
      rcases w.next_eq with ⟨hhead, htail⟩
      rcases hnext : w.next with ⟨found, rest⟩
      rw [hnext] at hhead htail
      rw [take, hnext]
      cases found with
      | none =>
          have hnil : w.frames = [] := List.head?_eq_none_iff.mp hhead.symm
          rw [hnil] at htail ⊢
          exact ⟨rfl, htail⟩
      | some frame =>
          have hcons : w.frames = frame :: rest.frames := by
            rw [show rest.frames = w.frames.tail from htail]
            exact (List.cons_head?_tail hhead.symm).symm
          rcases ih rest with ⟨htaken, hleft⟩
          rw [hcons]
          exact ⟨congrArg (List.cons frame) htaken, hleft⟩

end Walk

/-- The walk below an index at its start: the slice cut off at the index, and then the root. -/
def walkBelow (s : Stack φ) (x : Nat) : Walk φ :=
  let stop := min x s.depth
  ⟨(s.pushed.extract 0 (stop - 1)).toList.reverse, if 0 < stop then some s.root else none⟩

/-- Slice and root together are the frames below the index, innermost first. -/
theorem frames_walkBelow (s : Stack φ) (x : Nat) : (s.walkBelow x).frames = s.below x := by
  rw [← below_min_depth, walkBelow]
  cases min x s.depth with
  | zero => simp [Walk.frames]
  | succ n => exact List.reverse_cons.symm

/-! ## Frames by their indexes -/

/-- The frames below an index are those from the index less one down to zero. -/
theorem map_some_below (s : Stack φ) (x : Nat) :
    (s.below x).map some = (List.range (min x s.depth)).reverse.map s.frame? := by
  rw [← below_min_depth]
  have hdepth : min x s.depth ≤ s.depth := Nat.min_le_right _ _
  generalize min x s.depth = n at hdepth
  induction n with
  | zero => rw [below_zero]; rfl
  | succ n ih =>
      rcases s.exists_frame? hdepth with ⟨frame, hframe⟩
      rw [below_succ, hframe, List.range_succ, List.reverse_append, List.map_append,
        List.map_append, ih (by omega)]
      exact congrArg (· :: _) hframe.symm

/-- The walk below an index visits the frames by falling index. -/
theorem getElem?_below (s : Stack φ) (x : Nat) {j : Nat} (hj : j < min x s.depth) :
    (s.below x)[j]? = s.frame? (min x s.depth - 1 - j) := by
  have hlist := congrArg (fun frames => frames[j]?) (s.map_some_below x)
  have hrange : (List.range (min x s.depth)).reverse[j]? = some (min x s.depth - 1 - j) := by
    rw [List.getElem?_reverse (by rwa [List.length_range]), List.length_range,
      List.getElem?_range (by omega)]
  simp only [List.getElem?_map, hrange, Option.map_some] at hlist
  cases hfound : (s.below x)[j]? with
  | none =>
      rw [hfound] at hlist
      cases hlist
  | some frame =>
      rw [hfound] at hlist
      exact Option.some.inj hlist

/-! ## Walks that change frames -/

/--
The step changes the first frames into the second ones when it gets them one by one, the given
state with the first of them; the last state is what it hands out with the last of them.
-/
inductive Handed (step : σ → φ → Option (φ × σ)) : σ → List φ → List φ → σ → Prop where
  | nil (state : σ) : Handed step state [] [] state
  | cons {state next last : σ} {frame changed : φ} {frames changes : List φ}
      (head : step state frame = some (changed, next))
      (tail : Handed step next frames changes last) :
      Handed step state (frame :: frames) (changed :: changes) last

/-- As many frames are handed back as were handed out. -/
theorem Handed.length_eq {step : σ → φ → Option (φ × σ)} {state last : σ} {frames changes : List φ}
    (h : Handed step state frames changes last) : changes.length = frames.length := by
  induction h with
  | nil state => rfl
  | cons head tail ih => rw [List.length_cons, List.length_cons, ih]

/-- A walk through a list hands over frames until the step declines one or none is left. -/
theorem Plain.exists_handed (step : σ → φ → Option (φ × σ)) (frames : List φ) (state : σ) :
    ∃ n ≤ frames.length, ∃ changes,
      Handed step state (frames.take n) changes (changeWhile step frames state).1 ∧
      (changeWhile step frames state).2 = changes ++ frames.drop n ∧
      (n = frames.length ∨ ∃ frame, frames[n]? = some frame ∧
        step (changeWhile step frames state).1 frame = none) := by
  induction frames generalizing state with
  | nil => exact ⟨0, Nat.le_refl 0, [], .nil state, rfl, Or.inl rfl⟩
  | cons frame rest ih =>
      rw [changeWhile]
      cases hstep : step state frame with
      | none =>
          exact ⟨0, Nat.zero_le _, [], .nil state, rfl, Or.inr ⟨frame, rfl, hstep⟩⟩
      | some found =>
          rcases found with ⟨changed, next⟩
          rcases ih next with ⟨n, hn, changes, hhanded, hafter, hstop⟩
          refine ⟨n + 1, Nat.succ_le_succ hn, changed :: changes, .cons hstep hhanded,
            congrArg (List.cons changed) hafter, ?_⟩
          rcases hstop with rfl | hstop
          · exact Or.inl rfl
          · exact Or.inr hstop

/--
A walk below an index has changed its first {lit}`n` frames and left the stack {lit}`t`.  The step
got the frames in the order of the walk, and either there was none left or it declined the next.
-/
structure Changes (s : Stack φ) (x : Nat) (step : σ → φ → Option (φ × σ)) (state : σ) (n : Nat)
    (changes : List φ) (last : σ) (t : Stack φ) : Prop where
  le : n ≤ min x s.depth
  handed : Handed step state ((s.below x).take n) changes last
  stops : n = min x s.depth ∨
    ∃ frame, s.frame? (min x s.depth - 1 - n) = some frame ∧ step last frame = none
  depth : t.depth = s.depth
  visited : ∀ j < n, t.frame? (min x s.depth - 1 - j) = changes[j]?
  others : ∀ i, i + n < min x s.depth ∨ min x s.depth ≤ i → t.frame? i = s.frame? i

/-- A part of a list that is replaced backwards, item by item. -/
theorem getElem?_replaced (l r : List φ) {m : Nat} (hr : r.length ≤ m) (hm : m ≤ l.length)
    (i : Nat) : (l.take (m - r.length) ++ (r.reverse ++ l.drop m))[i]? =
      if i + r.length < m ∨ m ≤ i then l[i]? else r[m - 1 - i]? := by
  have htake : (l.take (m - r.length)).length = m - r.length := by
    rw [List.length_take]
    omega
  by_cases hbefore : i + r.length < m
  · rw [if_pos (Or.inl hbefore), List.getElem?_append_left (by omega),
      List.getElem?_take_of_lt (by omega)]
  · rw [List.getElem?_append_right (by omega), htake]
    by_cases hafter : m ≤ i
    · have hplace : m + (i - (m - r.length) - r.length) = i := by omega
      rw [if_pos (Or.inr hafter), List.getElem?_append_right (by rw [List.length_reverse]; omega),
        List.length_reverse, List.getElem?_drop, hplace]
    · have hplace : r.length - 1 - (i - (m - r.length)) = m - 1 - i := by omega
      rw [if_neg (by omega), List.getElem?_append_left (by rw [List.length_reverse]; omega),
        List.getElem?_reverse (by omega), hplace]

/-- Other frames in the places just before an index, in reverse, leave all other places alone. -/
theorem frame?_replaced {s t : Stack φ} {r : List φ} {m : Nat} (hr : r.length ≤ m)
    (hm : m ≤ s.depth)
    (h : t.toList = s.toList.take (m - r.length) ++ (r.reverse ++ s.toList.drop m)) :
    t.depth = s.depth ∧ ∀ i, t.frame? i =
      if i + r.length < m ∨ m ≤ i then s.frame? i else r[m - 1 - i]? := by
  rw [← length_toList] at hm
  constructor
  · rw [← length_toList, ← length_toList, h]
    simp only [List.length_append, List.length_take, List.length_reverse, List.length_drop]
    omega
  · intro i
    rw [frame?_eq_getElem?, h, getElem?_replaced _ _ hr hm, frame?_eq_getElem?]

/-- A walk that changes frames changes the listing of the walk, and nothing past the index. -/
theorem changeWhileBelow_eq (s : Stack φ) (x : Nat) (step : σ → φ → Option (φ × σ)) (state : σ) :
    (s.changeWhileBelow x step state).1 = (Plain.changeWhile step (s.below x) state).1 ∧
      (s.changeWhileBelow x step state).2.toList =
        (Plain.changeWhile step (s.below x) state).2.reverse ++
          s.toList.drop (min x s.depth) := by
  have hwalk := changeWhileAmong_eq step s (Nat.min_le_right x s.depth) state
  rw [below_min_depth] at hwalk
  exact ⟨congrArg Prod.fst hwalk, congrArg Prod.snd hwalk⟩

/-- The frames that a walk has not come to are the first ones of the stack. -/
theorem reverse_drop_below (s : Stack φ) (x n : Nat) :
    ((s.below x).drop n).reverse = s.toList.take (min x s.depth - n) := by
  rw [← below_min_depth, below_eq_reverse_take, List.drop_reverse, List.reverse_reverse,
    List.length_take, length_toList, List.take_take]
  congr 1
  omega

/-- Every walk that changes frames visits the first frames of the walk below the same index. -/
theorem changes_changeWhileBelow (s : Stack φ) (x : Nat) (step : σ → φ → Option (φ × σ))
    (state : σ) : ∃ n changes,
      Changes s x step state n changes (s.changeWhileBelow x step state).1
        (s.changeWhileBelow x step state).2 := by
  rcases s.changeWhileBelow_eq x step state with ⟨hlast, hlist⟩
  rcases Plain.exists_handed step (s.below x) state with ⟨n, hn, changes, hhanded, hafter, hstop⟩
  rw [← hlast] at hhanded hstop
  rw [length_below] at hn hstop
  have hchanges : changes.length = n := by
    rw [hhanded.length_eq, List.length_take, length_below]
    omega
  rw [hafter, List.reverse_append, reverse_drop_below, List.append_assoc, ← hchanges] at hlist
  rcases frame?_replaced (by omega) (Nat.min_le_right _ _) hlist with ⟨hdepth, hframes⟩
  rw [hchanges] at hframes
  refine ⟨n, changes, hn, hhanded, ?_, hdepth, fun j hj => ?_, fun i hi => ?_⟩
  · refine hstop.imp id fun ⟨frame, hframe, hdeclined⟩ => ⟨frame, ?_, hdeclined⟩
    have hlt : n < min x s.depth := by
      rw [← length_below]
      exact (List.getElem?_eq_some_iff.mp hframe).1
    rwa [← getElem?_below s x hlt]
  · have hplace : min x s.depth - 1 - (min x s.depth - 1 - j) = j := by omega
    rw [hframes, if_neg (by omega), hplace]
  · rw [hframes, if_pos hi]

/-! ## All walks below an index -/

/-- What the walks below an index visit. -/
structure WalksBelow (s : Stack φ) (x : Nat) : Prop where
  /-- The frames of all lower indexes, each once, from the highest of them down to the root. -/
  frames : (s.below x).map some = (List.range (min x s.depth)).reverse.map s.frame?
  /-- A walk gives them one by one, however many are asked for. -/
  taken : ∀ n, ((s.walkBelow x).take n).1 = (s.below x).take n
  /-- At every moment it is known how many are left. -/
  sizeHint : ∀ n, ((s.walkBelow x).take n).2.sizeHint = .exact (min x s.depth - n)
  /-- Walks that change frames visit the first of the same frames. -/
  changes : ∀ {σ : Type} (step : σ → φ → Option (φ × σ)) (state : σ), ∃ n changes,
    Changes s x step state n changes (s.changeWhileBelow x step state).1
      (s.changeWhileBelow x step state).2
  /-- From the depth on, these are the walks over the whole stack. -/
  whole : s.depth ≤ x → s.below x = s.fromTop ∧ s.walkBelow x = s.walkBelow s.depth ∧
    ∀ {σ : Type} (step : σ → φ → Option (φ × σ)) (state : σ),
      s.changeWhileBelow x step state = s.changeWhileBelow s.depth step state

/-- Walks below an index visit the frames there, know their number and stay ended. -/
theorem walksBelow (s : Stack φ) (x : Nat) : WalksBelow s x where
  frames := s.map_some_below x
  taken n := by rw [((s.walkBelow x).take_eq n).1, frames_walkBelow]
  sizeHint n := by
    rw [Walk.sizeHint_eq, ((s.walkBelow x).take_eq n).2, frames_walkBelow, List.length_drop,
      length_below]
  changes := s.changes_changeWhileBelow x
  whole := by
    intro hx
    have hstop : min x s.depth = min s.depth s.depth := by omega
    refine ⟨?_, ?_, fun step state => ?_⟩
    · rw [fromTop, ← below_min_depth s x, hstop, below_min_depth]
    · rw [walkBelow, walkBelow, hstop]
    · rw [changeWhileBelow, changeWhileBelow, hstop]

end Stack
end LexicalScope
