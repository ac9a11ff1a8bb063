import LexicalScope.Proofs.Stack.Walks
import LexicalScope.Rows.Session

/-!
# The calls of a search

A search through a stack asks a predicate that keeps a state, and may change its mind with every
call.  Which frames it was asked about, how often and in which order, is seen by letting it record
its calls: this changes neither what it answers nor where the search ends.  The search asks about
the frames from the innermost outwards, hands the state from call to call, and stops at the first
yes; the index that it answers is the depth less the number of calls.

Main results:

- Theorem {lit}`Stack.Plain.search_calls`: the calls of a search through a list.
- Theorems {lit}`Stack.foundAt_of_positionWith` and {lit}`Stack.foundNowhere_of_positionWith`: the
  calls of a search through a stack.
- Theorem {lit}`Stack.positionWith_of_stateless`: a predicate that ignores its state.
- Theorem {lit}`Stack.positionWith_onCall`: a predicate that ignores the frames.
- Theorem {lit}`Stack.position_calls`: every search, and the questions about rows.
-/

namespace LexicalScope
namespace Stack

variable {φ σ : Type}

/-! ## Calls and their record -/

/--
Asked about the frames one by one, the given state with the first of them, the predicate answers as
listed; the last state is what it hands out with the last answer.
-/
inductive Calls (accepts : σ → φ → Bool × σ) : σ → List φ → List Bool → σ → Prop where
  | nil (state : σ) : Calls accepts state [] [] state
  | cons {state next last : σ} {frame : φ} {answer : Bool} {frames : List φ} {answers : List Bool}
      (head : accepts state frame = (answer, next))
      (tail : Calls accepts next frames answers last) :
      Calls accepts state (frame :: frames) (answer :: answers) last

/-- The predicate that answers the same and records the frames that it is asked about. -/
def recording (accepts : σ → φ → Bool × σ) (state : σ × List φ) (frame : φ) :
    Bool × (σ × List φ) :=
  ((accepts state.1 frame).1, ((accepts state.1 frame).2, state.2 ++ [frame]))

/-- The frames that a search asks the predicate about, in the order of the calls. -/
def asked (s : Stack φ) (accepts : σ → φ → Bool × σ) (state : σ) : List φ :=
  (s.positionWith (recording accepts) (state, [])).2.2

/-- Calls that are recorded are calls of the predicate itself, and the record is complete. -/
theorem Calls.of_recording {accepts : σ → φ → Bool × σ} {state last : σ × List φ} {frames : List φ}
    {answers : List Bool} (h : Calls (recording accepts) state frames answers last) :
    Calls accepts state.1 frames answers last.1 ∧ last.2 = state.2 ++ frames := by
  induction h with
  | nil state => exact ⟨.nil state.1, (List.append_nil state.2).symm⟩
  | cons head tail ih =>
      rcases Prod.mk.inj head with ⟨hanswer, rfl⟩
      refine ⟨.cons (Prod.ext hanswer rfl) ih.1, ?_⟩
      rw [ih.2, List.append_assoc, List.singleton_append]

/-- A search through a list asks about its first items until one is accepted. -/
theorem Plain.search_calls (accepts : σ → φ → Bool × σ) (frames : List φ) (state : σ) :
    (∃ refused frame rest, frames = refused ++ frame :: rest ∧
      (search accepts frames state).1 = some rest.length ∧
      Calls accepts state (refused ++ [frame]) (List.replicate refused.length false ++ [true])
        (search accepts frames state).2) ∨
    ((search accepts frames state).1 = none ∧
      Calls accepts state frames (List.replicate frames.length false)
        (search accepts frames state).2) := by
  induction frames generalizing state with
  | nil => exact Or.inr ⟨rfl, .nil state⟩
  | cons frame rest ih =>
      rcases hcall : accepts state frame with ⟨answer, next⟩
      rw [search, hcall]
      cases answer with
      | true => exact Or.inl ⟨[], frame, rest, rfl, rfl, .cons hcall (.nil next)⟩
      | false =>
          rcases ih next with ⟨refused, found, after, hsplit, hindex, hcalls⟩ | ⟨hnone, hcalls⟩
          · exact Or.inl ⟨frame :: refused, found, after, congrArg (List.cons frame) hsplit, hindex,
              .cons hcall hcalls⟩
          · exact Or.inr ⟨hnone, .cons hcall hcalls⟩

/-- A search asks about all frames, innermost first. -/
theorem positionWith_eq_search (s : Stack φ) (accepts : σ → φ → Bool × σ) (state : σ) :
    s.positionWith accepts state = Plain.search accepts s.fromTop state :=
  s.searchAmong_eq_search accepts (Nat.le_refl s.depth) state

/-- Recording the calls changes neither the answer nor the last state. -/
theorem positionWith_recording (s : Stack φ) (accepts : σ → φ → Bool × σ) (state : σ) :
    s.positionWith (recording accepts) (state, []) =
      ((s.positionWith accepts state).1, ((s.positionWith accepts state).2,
        s.asked accepts state)) := by
  have hsearch : ∀ (frames : List φ) (state : σ) (made : List φ),
      (Plain.search (recording accepts) frames (state, made)).map id Prod.fst =
        Plain.search accepts frames state := by
    intro frames
    induction frames with
    | nil => exact fun state made => rfl
    | cons frame rest ih =>
        intro state made
        rcases hcall : accepts state frame with ⟨answer, next⟩
        rw [Plain.search, Plain.search, recording, hcall]
        cases answer with
        | true => rfl
        | false => exact ih next (made ++ [frame])
  have hsame := hsearch s.fromTop state []
  rw [← positionWith_eq_search, ← positionWith_eq_search] at hsame
  rw [← hsame]
  rfl

/-! ## Where a search ends -/

/--
A search has stopped at the frame with an index.  It has asked about the frames from the innermost
to this one, each once, and the last answer alone was yes.
-/
structure FoundAt (s : Stack φ) (accepts : σ → φ → Bool × σ) (state : σ) (i : Nat) (last : σ) :
    Prop where
  lt_depth : i < s.depth
  asked : s.asked accepts state = s.fromTop.take (s.depth - i)
  count : (s.asked accepts state).length = s.depth - i
  getLast? : (s.asked accepts state).getLast? = s.frame? i
  calls : Calls accepts state (s.asked accepts state)
    (List.replicate (s.depth - 1 - i) false ++ [true]) last

/-- A search has asked about all frames, each once, and the answer was always no. -/
structure FoundNowhere (s : Stack φ) (accepts : σ → φ → Bool × σ) (state last : σ) : Prop where
  asked : s.asked accepts state = s.fromTop
  count : (s.asked accepts state).length = s.depth
  calls : Calls accepts state (s.asked accepts state) (List.replicate s.depth false) last

/-- What a search records, for either of the two ways in which it can end. -/
theorem asked_cases (s : Stack φ) (accepts : σ → φ → Bool × σ) (state : σ) :
    (∃ refused frame rest, s.fromTop = refused ++ frame :: rest ∧
      (s.positionWith accepts state).1 = some rest.length ∧
      s.asked accepts state = refused ++ [frame] ∧
      Calls accepts state (refused ++ [frame]) (List.replicate refused.length false ++ [true])
        (s.positionWith accepts state).2) ∨
    ((s.positionWith accepts state).1 = none ∧ s.asked accepts state = s.fromTop ∧
      Calls accepts state s.fromTop (List.replicate s.fromTop.length false)
        (s.positionWith accepts state).2) := by
  have hsearch := Plain.search_calls (recording accepts) s.fromTop (state, [])
  rw [← positionWith_eq_search, positionWith_recording] at hsearch
  rcases hsearch with ⟨refused, frame, rest, hsplit, hindex, hcalls⟩ | ⟨hnone, hcalls⟩
  · rcases hcalls.of_recording with ⟨hcalls, hasked⟩
    exact Or.inl ⟨refused, frame, rest, hsplit, hindex, hasked, hcalls⟩
  · rcases hcalls.of_recording with ⟨hcalls, hasked⟩
    exact Or.inr ⟨hnone, hasked, hcalls⟩

/-- Where the listing of a stack is split, the length of the rest is the index of the frame. -/
theorem frame?_of_fromTop_eq {s : Stack φ} {before rest : List φ} {frame : φ}
    (h : s.fromTop = before ++ frame :: rest) :
    s.depth = before.length + 1 + rest.length ∧ s.frame? rest.length = some frame := by
  have hdepth : s.depth = before.length + 1 + rest.length := by
    rw [← length_fromTop, h, List.length_append, List.length_cons]
    omega
  have hplace := s.getElem?_below s.depth (j := before.length) (by omega)
  have hindex : min s.depth s.depth - 1 - before.length = rest.length := by omega
  rw [hindex, ← fromTop, h, List.getElem?_append_right (Nat.le_refl _), Nat.sub_self] at hplace
  exact ⟨hdepth, hplace.symm⟩

/--
If the search finds an index, it has called the predicate on the frames down to it, and only there
was the answer yes.
-/
theorem foundAt_of_positionWith {s : Stack φ} {accepts : σ → φ → Bool × σ} {state : σ} {i : Nat}
    (h : (s.positionWith accepts state).1 = some i) :
    FoundAt s accepts state i (s.positionWith accepts state).2 := by
  rcases s.asked_cases accepts state with
    ⟨refused, frame, rest, hsplit, hindex, hasked, hcalls⟩ | ⟨hnone, -⟩
  · rw [h, Option.some.injEq] at hindex
    rcases frame?_of_fromTop_eq hsplit with ⟨hdepth, hframe⟩
    rw [← hindex] at hdepth hframe
    have hcount : s.depth - i = (refused ++ [frame]).length := by
      rw [List.length_append, List.length_singleton]
      omega
    refine ⟨by omega, ?_, ?_, ?_, ?_⟩
    · have hcons : refused ++ frame :: rest = (refused ++ [frame]) ++ rest := by
        rw [List.append_assoc, List.singleton_append]
      rw [hasked, hsplit, hcons, hcount, List.take_left]
    · rw [hasked, hcount]
    · rw [hasked, hframe, List.getLast?_concat]
    · have hrefused : s.depth - 1 - i = refused.length := by omega
      rw [hasked, hrefused]
      exact hcalls
  · rw [hnone] at h
    cases h

/--
If the search finds nothing, it has called the predicate once on every frame, and the answer was
always no.
-/
theorem foundNowhere_of_positionWith {s : Stack φ} {accepts : σ → φ → Bool × σ} {state : σ}
    (h : (s.positionWith accepts state).1 = none) :
    FoundNowhere s accepts state (s.positionWith accepts state).2 := by
  rcases s.asked_cases accepts state with ⟨_, _, _, -, hindex, -⟩ | ⟨-, hasked, hcalls⟩
  · rw [h] at hindex
    cases hindex
  · have hcount : (s.asked accepts state).length = s.depth := by rw [hasked, length_fromTop]
    rw [← hasked, hcount] at hcalls
    exact ⟨hasked, hcount, hcalls⟩

/-! ## Predicates that ignore their state, or the frames -/

/-- Where the answers do not depend on the state, the search ends at the greatest index. -/
theorem positionWith_of_stateless (s : Stack φ) {accepts : σ → φ → Bool × σ} {p : φ → Bool}
    (h : ∀ state frame, (accepts state frame).1 = p frame) (state : σ) :
    (s.positionWith accepts state).1 = s.position p := by
  have hamong : ∀ n state, (s.searchAmong accepts n state).1 =
      (s.searchAmong (fun _ frame => (p frame, ())) n ()).1 := by
    intro n
    induction n with
    | zero => exact fun state => rfl
    | succ n ih =>
        intro state
        rw [searchAmong, searchAmong]
        cases s.frame? n with
        | none => exact ih state
        | some frame =>
            rcases hcall : accepts state frame with ⟨answer, next⟩
            have hanswer : p frame = answer := by rw [← h state frame, hcall]
            dsimp only
            rw [hcall, hanswer]
            cases answer with
            | true => rfl
            | false => exact ih next
  exact hamong s.depth state

/-- The predicate that counts its calls and says yes on the call with the given number. -/
def onCall (number : Nat) (made : Nat) (_ : φ) : Bool × Nat :=
  (made + 1 == number, made + 1)

/--
A predicate that says yes at a certain call finds the frame of that call, if there are so many
frames.
-/
theorem Plain.search_onCall (number : Nat) (frames : List φ) (made : Nat) :
    (search (onCall number) frames made).1 =
      if made < number ∧ number ≤ made + frames.length then some (made + frames.length - number)
      else none := by
  induction frames generalizing made with
  | nil => rw [search, List.length_nil, if_neg (by omega)]
  | cons frame rest ih =>
      rw [search, onCall]
      cases hanswer : made + 1 == number with
      | true =>
          have hnumber := eq_of_beq hanswer
          have hindex : made + (rest.length + 1) - number = rest.length := by omega
          rw [List.length_cons, if_pos (by omega), hindex]
      | false =>
          have hnumber := ne_of_beq_false hanswer
          have hlength : made + 1 + rest.length = made + (rest.length + 1) := by omega
          have hcondition : (made + 1 < number ∧ number ≤ made + (rest.length + 1)) ↔
              (made < number ∧ number ≤ made + (rest.length + 1)) := by omega
          dsimp only
          rw [ih, hlength, List.length_cons]
          exact if_congr hcondition rfl rfl

/-- The call with a number is made if there are so many frames, and it ends the search there. -/
theorem positionWith_onCall (s : Stack φ) (number : Nat) :
    (s.positionWith (onCall number) 0).1 =
      if 1 ≤ number ∧ number ≤ s.depth then some (s.depth - number) else none := by
  rw [positionWith_eq_search, Plain.search_onCall, length_fromTop, Nat.zero_add]
  rfl

/-! ## All searches -/

/-- What a search with a predicate answers, and which calls it makes. -/
structure PositionCalls (s : Stack φ) (accepts : σ → φ → Bool × σ) (state : σ) : Prop where
  /-- The record of the calls is made on the search itself. -/
  recorded : s.positionWith (recording accepts) (state, []) =
    ((s.positionWith accepts state).1, ((s.positionWith accepts state).2, s.asked accepts state))
  found : ∀ i, (s.positionWith accepts state).1 = some i →
    FoundAt s accepts state i (s.positionWith accepts state).2
  notFound : (s.positionWith accepts state).1 = none →
    FoundNowhere s accepts state (s.positionWith accepts state).2
  /-- Without a state, the answer is the greatest index whose frame satisfies the predicate. -/
  stateless : ∀ p : φ → Bool, (∀ state frame, (accepts state frame).1 = p frame) →
    (s.positionWith accepts state).1 = s.position p ∧
    (∀ i, s.position p = some i ↔
      (s.frame? i).any p = true ∧ ∀ j, i < j → (s.frame? j).any p = false) ∧
    (s.position p = none ↔ ∀ j, (s.frame? j).any p = false)

/-- Every search calls its predicate as described. -/
theorem positionCalls (s : Stack φ) (accepts : σ → φ → Bool × σ) (state : σ) :
    PositionCalls s accepts state where
  recorded := s.positionWith_recording accepts state
  found _ := foundAt_of_positionWith
  notFound := foundNowhere_of_positionWith
  stateless p hp :=
    ⟨s.positionWith_of_stateless hp state, s.position_eq_some_iff p, s.position_eq_none_iff p⟩

end Stack

/-! ## Questions about rows -/

namespace Rows

/-- A question counts the calls that are made. -/
theorem Question.eq_add_of_calls {question : Question} {made last : Nat} {rows : List Row}
    {answers : List Bool} (h : Stack.Calls question.ask made rows answers last) :
    last = made + rows.length := by
  induction h with
  | nil made => rfl
  | cons head tail ih =>
      rcases Prod.mk.inj head with ⟨-, rfl⟩
      rw [ih, List.length_cons]
      omega

/-- As many frames are asked as calls are counted. -/
theorem Question.length_asked (question : Question) (s : Stack Row) :
    (s.asked question.ask 0).length = (s.positionWith question.ask 0).2 := by
  have hcalls : ∃ answers, Stack.Calls question.ask 0 (s.asked question.ask 0) answers
      (s.positionWith question.ask 0).2 := by
    cases hindex : (s.positionWith question.ask 0).1 with
    | some i => exact ⟨_, (Stack.foundAt_of_positionWith hindex).calls⟩
    | none => exact ⟨_, (Stack.foundNowhere_of_positionWith hindex).calls⟩
  rcases hcalls with ⟨answers, hcalls⟩
  rw [eq_add_of_calls hcalls, Nat.zero_add]

/-- What a session with rows answers to a request for a position. -/
structure Session.PositionRequests (s : Session) : Prop where
  /-- The index where the search ends, and how many calls it makes. -/
  calls : ∀ question : Question, exec (.position question) s =
    (.position (s.stack.positionWith question.ask 0).1 (s.stack.asked question.ask 0).length, s)
  contains : ∀ n, (s.stack.positionWith (Question.contains n).ask 0).1 =
    s.stack.position fun row => row.contains n
  hasLength : ∀ n, (s.stack.positionWith (Question.hasLength n).ask 0).1 =
    s.stack.position fun row => row.length == n
  isCall : ∀ n, (s.stack.positionWith (Question.isCall n).ask 0).1 =
    if 1 ≤ n ∧ n ≤ s.stack.depth then some (s.stack.depth - n) else none

/-- Position requests answer as the calls of their predicates tell. -/
theorem Session.positionRequests (s : Session) : s.PositionRequests where
  calls question := by
    rw [question.length_asked, exec]
    rfl
  contains n :=
    s.stack.positionWith_of_stateless (p := fun row => row.contains n) (fun _ _ => rfl) 0
  hasLength n :=
    s.stack.positionWith_of_stateless (p := fun row => row.length == n) (fun _ _ => rfl) 0
  isCall n := s.stack.positionWith_onCall n

end Rows

/--
A search asks its predicate about the frames from the innermost outwards, each at most once, hands
the state from call to call and stops at the first yes.  It answers the index of that frame, which
is the depth less the number of calls, or nothing after it has asked about all frames.  A predicate
without a state gets the greatest index, and one that says yes on a certain call alone gets the
depth less the number of that call.
-/
theorem Stack.position_calls :
    (∀ {φ σ : Type} (s : Stack φ) (accepts : σ → φ → Bool × σ) (state : σ),
      PositionCalls s accepts state) ∧
    (∀ {φ : Type} (s : Stack φ) (number : Nat), (s.positionWith (onCall number) 0).1 =
      if 1 ≤ number ∧ number ≤ s.depth then some (s.depth - number) else none) ∧
    ∀ s : Rows.Session, s.PositionRequests :=
  ⟨positionCalls, positionWith_onCall, Rows.Session.positionRequests⟩

end LexicalScope
