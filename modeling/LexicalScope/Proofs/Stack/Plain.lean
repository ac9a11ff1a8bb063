import LexicalScope.Proofs.Stack.Keep
import LexicalScope.Proofs.Stack.Related

/-!
# Stacks as plain lists

A stack holds its root apart from the frames above it, and counts, cuts and searches with
that in mind.  Whoever uses it need not know: every operation does what the operation of
the same name does with the plain list of all frames, the root first and the current frame
last.  So a client that decides after each answer what to ask next cannot tell a stack from
a plain list that is never empty.

Main results:

- Theorem {lit}`Stack.pop_plain`: popping takes the last frame off, unless it is the only one.
- Theorems {lit}`Stack.searchAmong_eq_search` and {lit}`Stack.changeWhileAmong_eq`: searches and
  walks that change frames go through the reversed list.
- Theorem {lit}`Stack.performPlain_plain`: each operation commutes with the passage to lists.
- Theorem {lit}`Stack.refines_plain`: so does every run of operations, and stacks are equal if
  they have equally many frames that are equal in pairs.
-/

namespace LexicalScope
namespace Stack

/-! ## Plain lists of frames -/

/-- A list of frames that is not empty: the root is the first one, the current frame the last. -/
structure Plain (φ : Type) where
  frames : List φ
  ne_nil : frames ≠ []

namespace Plain

variable {φ σ : Type}

/-- The plain list that consists of its root. -/
def ofRoot (root : φ) : Plain φ :=
  ⟨[root], List.cons_ne_nil _ _⟩

/-- Puts a frame after all others. -/
def push (l : Plain φ) (frame : φ) : Plain φ :=
  ⟨l.frames ++ [frame], List.append_ne_nil_of_right_ne_nil _ (List.cons_ne_nil _ _)⟩

/-- A list as long as that of a plain stack is not empty. -/
theorem ne_nil_of_length_eq (l : Plain φ) {frames : List φ} (h : frames.length = l.frames.length) :
    frames ≠ [] := by
  intro hnil
  rw [hnil] at h
  exact l.ne_nil (List.length_eq_zero_iff.mp h.symm)

/-- If there is more than the root, something is left after a pop. -/
theorem dropLast_ne_nil (l : Plain φ) (h : l.frames.length ≠ 1) : l.frames.dropLast ≠ [] := by
  intro hnil
  have hlength := congrArg List.length hnil
  have hpos := List.length_pos_iff.mpr l.ne_nil
  rw [List.length_dropLast, List.length_nil] at hlength
  omega

/-- Takes the last frame off, unless it is the only one. -/
def pop (l : Plain φ) : Except Error φ × Plain φ :=
  if h : l.frames.length = 1 then (.error .underflow, l)
  else (.ok (l.frames.getLast l.ne_nil), ⟨l.frames.dropLast, l.dropLast_ne_nil h⟩)

/-- Puts a frame in the place of the one with an index, all others staying as they are. -/
def set (l : Plain φ) (index : Nat) (frame : φ) : Plain φ :=
  ⟨l.frames.set index frame, l.ne_nil_of_length_eq List.length_set⟩

/-! ### Walks over a list -/

/--
Asks the predicate about the frames of a list one by one until it accepts one, and answers
how many frames come after that one.  The predicate's state is handed from call to call.
-/
def search (accepts : σ → φ → Bool × σ) : List φ → σ → Option Nat × σ
  | [], state => (none, state)
  | frame :: rest, state =>
    match accepts state frame with
    | (true, state) => (some rest.length, state)
    | (false, state) => search accepts rest state

/-- Changes the frames of a list one by one until `step` declines, and answers the state. -/
def changeWhile (step : σ → φ → Option (φ × σ)) : List φ → σ → σ × List φ
  | [], state => (state, [])
  | frame :: rest, state =>
    match step state frame with
    | none => (state, frame :: rest)
    | some (changed, state) => (changeWhile step rest state).map id (changed :: ·)

/-- Changing items one by one keeps their number. -/
theorem length_changeWhile (step : σ → φ → Option (φ × σ)) (frames : List φ) (state : σ) :
    (changeWhile step frames state).2.length = frames.length := by
  induction frames generalizing state with
  | nil => rfl
  | cons frame rest ih =>
      rw [changeWhile]
      cases step state frame with
      | none => rfl
      | some found => exact congrArg Nat.succ (ih found.2)

/-- Changes the frames below an index, innermost first, until `step` declines. -/
def changeBelow (l : Plain φ) (index : Nat) (step : σ → φ → Option (φ × σ)) (state : σ) :
    σ × Plain φ :=
  let outcome := changeWhile step (l.frames.take index).reverse state
  (outcome.1, ⟨outcome.2.reverse ++ l.frames.drop index, l.ne_nil_of_length_eq (by
    rw [List.length_append, List.length_reverse, length_changeWhile, List.length_reverse,
      ← List.length_append, List.take_append_drop])⟩)

end Plain

/-! ## Operations and their clients -/

/-- One operation on a stack, and the type of its answers. -/
inductive Operation (φ : Type) : Type → Type 1 where
  | depth : Operation φ Nat
  | push (frame : φ) : Operation φ Unit
  | pop : Operation φ (Except Error φ)
  | root : Operation φ φ
  | top : Operation φ φ
  /-- Is the current frame the root itself? -/
  | topIsRoot : Operation φ Bool
  /-- Change the current frame in place. -/
  | changeTop {α : Type} (f : φ → α × φ) : Operation φ α
  | frameAt (index : Nat) : Operation φ (Option φ)
  /-- Change the frame with an index in place. -/
  | changeAt {α : Type} (index : Nat) (f : φ → α × φ) : Operation φ (Option α)
  /-- The frames, innermost first. -/
  | frames : Operation φ (List φ)
  /-- The frames below an index, innermost first. -/
  | framesBelow (index : Nat) : Operation φ (List φ)
  /-- The frames below an index that come first on the walk, as many as the limit allows. -/
  | takeBelow (index limit : Nat) : Operation φ (List φ)
  /-- Change the frames below an index, innermost first, until `step` declines. -/
  | changeBelow {σ : Type} (index : Nat) (step : σ → φ → Option (φ × σ)) (state : σ) :
      Operation φ σ
  /-- The index of the innermost frame that the predicate accepts. -/
  | position {σ : Type} (accepts : σ → φ → Bool × σ) (state : σ) : Operation φ (Option Nat × σ)
  /-- The frames from the root, as they are displayed. -/
  | listing : Operation φ (List φ)

namespace Operation

variable {φ α : Type}

/-- What an operation answers on a stack, and the stack after it. -/
def perform : Operation φ α → Stack φ → α × Stack φ
  | .depth, s => (s.depth, s)
  | .push frame, s => ((), s.push frame)
  | .pop, s => s.pop
  | .root, s => (s.root, s)
  | .top, s => (s.top, s)
  | .topIsRoot, s => (s.topIsRoot, s)
  | .changeTop f, s => s.modifyTop f
  | .frameAt index, s => (s.frame? index, s)
  | .changeAt index f, s => s.modifyFrame index f
  | .frames, s => (s.fromTop, s)
  | .framesBelow index, s => (s.below index, s)
  | .takeBelow index limit, s => (s.takeBelow index limit, s)
  | .changeBelow index step state, s => s.changeWhileBelow index step state
  | .position accepts state, s => (s.positionWith accepts state, s)
  | .listing, s => (s.toList, s)

/-- What an operation answers on a plain list, and the plain list after it. -/
def performPlain : Operation φ α → Plain φ → α × Plain φ
  | .depth, l => (l.frames.length, l)
  | .push frame, l => ((), l.push frame)
  | .pop, l => l.pop
  | .root, l => (l.frames.head l.ne_nil, l)
  | .top, l => (l.frames.getLast l.ne_nil, l)
  | .topIsRoot, l => (l.frames.length == 1, l)
  | .changeTop f, l =>
    let (answer, changed) := f (l.frames.getLast l.ne_nil)
    (answer, l.set (l.frames.length - 1) changed)
  | .frameAt index, l => (l.frames[index]?, l)
  | .changeAt index f, l =>
    match l.frames[index]? with
    | some frame =>
      let (answer, changed) := f frame
      (some answer, l.set index changed)
    | none => (none, l)
  | .frames, l => (l.frames.reverse, l)
  | .framesBelow index, l => ((l.frames.take (min index l.frames.length)).reverse, l)
  | .takeBelow index limit, l =>
    (((l.frames.take (min index l.frames.length)).reverse).take limit, l)
  | .changeBelow index step state, l => l.changeBelow (min index l.frames.length) step state
  | .position accepts state, l => (Plain.search accepts l.frames.reverse state, l)
  | .listing, l => (l.frames, l)

end Operation

/-- A client of a stack, which asks for operations and goes on from what it is answered. -/
inductive Client (φ β : Type) : Type 1 where
  /-- It is done, with the given result. -/
  | done (result : β)
  /-- It asks for an operation and goes on from the answer. -/
  | ask {α : Type} (operation : Operation φ α) (next : α → Client φ β)

namespace Client

variable {φ β : Type}

/-- What a client results in on a stack, and the stack that it leaves. -/
def run : Client φ β → Stack φ → β × Stack φ
  | .done result, s => (result, s)
  | .ask operation next, s =>
    let (answer, s) := operation.perform s
    (next answer).run s

/-- What a client results in on a plain list, and the plain list that it leaves. -/
def runPlain : Client φ β → Plain φ → β × Plain φ
  | .done result, l => (result, l)
  | .ask operation next, l =>
    let (answer, l) := operation.performPlain l
    (next answer).runPlain l

end Client

/-! ## The plain list of a stack -/

variable {φ α σ : Type}

/-- All frames of a stack as a plain list. -/
def plain (s : Stack φ) : Plain φ :=
  ⟨s.toList, List.cons_ne_nil _ _⟩

/-- Plain stacks are equal if and only if their lists are. -/
theorem plain_inj {l m : Plain φ} : l = m ↔ l.frames = m.frames := by
  obtain ⟨_, _⟩ := l
  obtain ⟨_, _⟩ := m
  simp

/-- The last item of the list is the current frame. -/
theorem getLast_plain (s : Stack φ) : s.plain.frames.getLast s.plain.ne_nil = s.top := by
  have htop := s.frame?_top
  rw [frame?_eq_getElem?] at htop
  have hlast : s.pushed.size = s.toList.length - 1 := by
    rw [length_toList]
    rfl
  rw [hlast, ← List.getLast?_eq_getElem?] at htop
  exact (List.getLast_eq_iff_getLast?_eq_some _).mpr htop

/-- A push adds an item at the end of the list. -/
theorem plain_push (s : Stack φ) (frame : φ) : (s.push frame).plain = s.plain.push frame :=
  plain_inj.mpr (s.toList_push frame)

/-- Replacing a frame replaces an item of the list. -/
theorem plain_setFrame (s : Stack φ) (i : Nat) (frame : φ) :
    (s.setFrame i frame).plain = s.plain.set i frame :=
  plain_inj.mpr (s.toList_setFrame i frame)

/-- Popping takes the last frame off, unless it is the only one. -/
theorem pop_plain (s : Stack φ) : s.plain.pop = s.pop.map id plain := by
  have hlength : s.plain.frames.length = s.depth := s.length_toList
  rw [Plain.pop]
  by_cases h : s.depth = 1
  · rw [dif_pos (hlength.trans h), s.pop_of_depth_eq_one h]
    rfl
  · have hpos := s.depth_pos
    rw [dif_neg (hlength ▸ h), s.pop_of_one_lt_depth (by omega), getLast_plain]
    refine Prod.ext rfl (plain_inj.mpr ?_)
    change s.toList.dropLast = (s.keep (s.depth - 1)).toList
    rw [toList_keep s (by omega), List.dropLast_eq_take, length_toList]

/-- A search through the first frames is one through the reversed list of these frames. -/
theorem searchAmong_eq_search (s : Stack φ) (accepts : σ → φ → Bool × σ) {n : Nat}
    (hn : n ≤ s.depth) (state : σ) :
    s.searchAmong accepts n state = Plain.search accepts (s.below n) state := by
  induction n generalizing state with
  | zero => rw [below_zero]; rfl
  | succ n ih =>
      obtain ⟨frame, hframe⟩ := s.exists_frame? hn
      have hlength : (s.below n).length = n := by
        rw [length_below]
        omega
      rw [searchAmong, hframe, below_succ, hframe, Option.toList_some, List.singleton_append,
        Plain.search]
      dsimp only
      rcases accepts state frame with ⟨_ | _, state⟩
      · exact ih (by omega) state
      · rw [hlength]

/-- A walk that changes the first frames changes the reversed list of these frames. -/
theorem changeWhileAmong_eq (step : σ → φ → Option (φ × σ)) {n : Nat} (s : Stack φ)
    (hn : n ≤ s.depth) (state : σ) :
    (changeWhileAmong step n s state).map id toList =
      (Plain.changeWhile step (s.below n) state).map id
        fun frames => frames.reverse ++ s.toList.drop n := by
  induction n generalizing s state with
  | zero =>
      rw [below_zero]
      rfl
  | succ n ih =>
      obtain ⟨frame, hframe⟩ := s.exists_frame? hn
      rw [changeWhileAmong, hframe, below_succ, hframe, Option.toList_some, List.singleton_append,
        Plain.changeWhile]
      dsimp only
      rcases step state frame with _ | ⟨changed, state⟩
      · have hwhole : (frame :: s.below n).reverse ++ s.toList.drop (n + 1) = s.toList := by
          rw [← List.singleton_append, ← Option.toList_some, ← hframe, ← below_succ,
            below_eq_reverse_take, List.reverse_reverse, List.take_append_drop]
        exact Prod.ext rfl hwhole.symm
      · have hbelow : (s.setFrame n changed).below n = s.below n := by
          rw [below_eq_reverse_take, below_eq_reverse_take, toList_setFrame,
            List.take_set_of_le (Nat.le_refl n)]
        have hdrop : (s.setFrame n changed).toList.drop n = changed :: s.toList.drop (n + 1) := by
          have hlt : n < (s.toList.set n changed).length := by
            rwa [List.length_set, length_toList]
          rw [toList_setFrame, List.drop_eq_getElem_cons hlt, List.getElem_set_self,
            List.drop_set_of_lt (Nat.lt_succ_self n)]
        refine (ih (s.setFrame n changed) ?_ state).trans ?_
        · rw [depth_setFrame]
          omega
        · rw [hbelow, hdrop]
          simp [Prod.map]

/-- Changing frames of a walk one by one changes the items of the list in the same way. -/
theorem plain_changeWhileBelow (s : Stack φ) (x : Nat) (step : σ → φ → Option (φ × σ)) (state : σ) :
    s.plain.changeBelow (min x s.depth) step state =
      (s.changeWhileBelow x step state).map id plain := by
  have hwalk := changeWhileAmong_eq step s (Nat.min_le_right x s.depth) state
  rw [below_eq_reverse_take] at hwalk
  exact Prod.ext (congrArg Prod.fst hwalk).symm (plain_inj.mpr (congrArg Prod.snd hwalk).symm)

/-- Each operation does with a stack what it does with the plain list of its frames. -/
theorem performPlain_plain (operation : Operation φ α) (s : Stack φ) :
    operation.performPlain s.plain = (operation.perform s).map id plain := by
  have hlength : s.plain.frames.length = s.depth := s.length_toList
  have hbelow : ∀ x, (s.plain.frames.take (min x s.depth)).reverse = s.below x := by
    intro x
    rw [← below_min_depth, below_eq_reverse_take]
    rfl
  cases operation with
  | depth => exact Prod.ext hlength rfl
  | push frame => exact Prod.ext rfl (s.plain_push frame).symm
  | pop => exact s.pop_plain
  | root => rfl
  | top => exact Prod.ext s.getLast_plain rfl
  | topIsRoot =>
      refine Prod.ext ?_ rfl
      rw [Operation.performPlain, hlength]
      change (s.pushed.size + 1 == 1) = s.pushed.isEmpty
      cases h : s.pushed.isEmpty <;> simp_all
  | changeTop f =>
      simp only [Operation.performPlain, getLast_plain, hlength]
      exact Prod.ext rfl (s.plain_setFrame s.pushed.size _).symm
  | frameAt index => exact Prod.ext (s.frame?_eq_getElem? index).symm rfl
  | changeAt index f =>
      have hframe : s.plain.frames[index]? = s.frame? index := (s.frame?_eq_getElem? index).symm
      simp only [Operation.performPlain, Operation.perform, hframe, modifyFrame]
      cases s.frame? index with
      | none => rfl
      | some frame => exact Prod.ext rfl (s.plain_setFrame index _).symm
  | frames => exact Prod.ext s.fromTop_eq_reverse.symm rfl
  | framesBelow index =>
      refine Prod.ext ?_ rfl
      rw [Operation.performPlain, hlength, hbelow]
      rfl
  | takeBelow index limit =>
      refine Prod.ext ?_ rfl
      rw [Operation.performPlain, hlength, hbelow, ← takeBelow_eq]
      rfl
  | changeBelow index step state =>
      rw [Operation.performPlain, hlength]
      exact s.plain_changeWhileBelow index step state
  | position accepts state =>
      refine Prod.ext ?_ rfl
      change Plain.search accepts s.toList.reverse state = s.searchAmong accepts s.depth state
      rw [searchAmong_eq_search s accepts (Nat.le_refl _), ← fromTop_eq_reverse]
      rfl
  | listing => rfl

/-- A client results in the same on a stack and on the plain list of its frames. -/
theorem runPlain_plain {β : Type} (client : Client φ β) (s : Stack φ) :
    client.runPlain s.plain = (client.run s).map id plain := by
  induction client generalizing s with
  | done result => rfl
  | ask operation next ih =>
      rw [Client.runPlain, performPlain_plain]
      exact ih (operation.perform s).1 (operation.perform s).2

/-- Stacks are equal if they have equally many frames that are equal in pairs. -/
theorem beq_iff_plain [BEq φ] (s t : Stack φ) :
    (s == t) = true ↔ s.plain.frames.length = t.plain.frames.length ∧
      ∀ i (hs : i < s.plain.frames.length) (ht : i < t.plain.frames.length),
        (s.plain.frames[i] == t.plain.frames[i]) = true :=
  Related.beq_iff_related.trans List.forall₂_iff_get

/--
Each operation on a stack is the operation on the plain list of its frames, a client that
starts from a root cannot tell the two apart, and two stacks are equal if their lists are
equally long and equal place by place.
-/
theorem refines_plain :
    (∀ {α : Type} (operation : Operation φ α) (s : Stack φ),
      operation.performPlain s.plain = (operation.perform s).map id plain) ∧
    (∀ {β : Type} (client : Client φ β) (root : φ),
      client.runPlain (.ofRoot root) = (client.run (ofRoot root)).map id plain) ∧
    (∀ [BEq φ] (s t : Stack φ), (s == t) = true ↔
      s.plain.frames.length = t.plain.frames.length ∧
        ∀ i (hs : i < s.plain.frames.length) (ht : i < t.plain.frames.length),
          (s.plain.frames[i] == t.plain.frames[i]) = true) :=
  ⟨performPlain_plain, fun client root => runPlain_plain client (ofRoot root), beq_iff_plain⟩

end Stack
end LexicalScope
