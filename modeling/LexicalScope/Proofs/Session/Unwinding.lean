import LexicalScope.Proofs.Session.Invariant
import LexicalScope.Proofs.Stack.Keep
import LexicalScope.Value

/-!
# How scopes end

A scope remembers the depth at its start and afterwards pops as long as the depth is
above it.  The body in between is any list of commands: it may pop the frame of the
scope itself, or go back to a saved copy of another depth.  Whatever chain the body
leaves, the scope ends in the outermost frames of that chain, at most as many as there
were at the start, and nothing is ever pushed back.

Since several levels of scopes around one body remember one depth after the other, the
outermost of them decides: they end where a single truncation to that depth ends.

Main results:

- Theorem {lit}`Session.cleanUp_iff`: popping while the depth is above another one always
  comes to an end, and never by a refused pop.
- Theorem {lit}`Session.inScopes_succ`: several scopes around a computation are as many
  pushes, the computation and one truncation.
- Theorem {lit}`Session.nested_scopes_end`: how commands within scopes end, with the frames
  that stay and the events that are recorded.
-/

namespace LexicalScope

namespace Session

variable {ε ι ρ κ α : Type} [Entry ε κ] [BEq κ]

/-! ## Pushes and pops in a row -/

/-- The events of so many pushes in a row, from the given depth upwards. -/
def pushes (depth n : Nat) : Array Event :=
  ((List.range' (depth + 1) n).map Event.pushed).toArray

/-- The events of the pops in a row that lead from one depth down to a lower one. -/
def pops (upper lower : Nat) : Array Event :=
  ((List.range' lower (upper - lower)).reverse.map Event.popped).toArray

/-- The session after so many empty frames were pushed. -/
def opened (s : Session ε) (n : Nat) : Session ε :=
  { s with
    chain := Nat.repeat Chain.push n s.chain
    log := s.log ++ pushes s.chain.depth n }

/-- The session after frames were popped as long as the depth was above the given one. -/
def unwoundTo (s : Session ε) (depth : Nat) : Session ε :=
  { s with
    chain := { s.chain with stack := s.chain.stack.keep depth }
    log := s.log ++ pops s.chain.depth depth }

/-- The events of several pushes begin with that of the first one. -/
theorem pushes_succ (d n : Nat) : pushes d (n + 1) = #[.pushed (d + 1)] ++ pushes (d + 1) n := by
  simp [pushes, List.range'_succ]

/-- There are no pops to a depth that is reached already. -/
theorem pops_of_le {upper lower : Nat} (h : upper ≤ lower) : pops upper lower = #[] := by
  simp [pops, Nat.sub_eq_zero_of_le h]

/-- The events of popping in two stages are those of popping at once. -/
theorem pops_append {upper middle lower : Nat} (h₁ : lower ≤ middle) (h₂ : middle ≤ upper) :
    pops upper middle ++ pops middle lower = pops upper lower := by
  have hsplit : List.range' lower (upper - lower) =
      List.range' lower (middle - lower) ++ List.range' middle (upper - middle) := by
    have hmiddle : lower + (middle - lower) = middle := by omega
    have hupper : middle - lower + (upper - middle) = upper - lower := by omega
    rw [← hupper, ← List.range'_append_1, hmiddle]
  simp [pops, hsplit]

/-- One more push can be made at the beginning or at the end. -/
theorem repeat_push_push (n : Nat) (c : Chain ε) :
    Nat.repeat Chain.push n c.push = (Nat.repeat Chain.push n c).push := by
  induction n with
  | zero => rfl
  | succ n ih => exact congrArg Chain.push ih

/-- Opening one scope pushes one empty frame. -/
theorem opened_one (s : Session ε) : s.opened 1 = s.afterPush (.empty s.chain.hasher) := by
  simp [opened, afterPush, pushes, Nat.repeat, Chain.push]

/-- Opening several scopes begins with opening one. -/
theorem opened_succ (s : Session ε) (n : Nat) : (s.opened 1).opened n = s.opened (n + 1) := by
  have hdepth : (s.opened 1).chain.depth = s.chain.depth + 1 := s.chain.depth_push
  simp only [opened, pushes_succ, Nat.repeat, repeat_push_push] at hdepth ⊢
  simp only [hdepth, Array.append_assoc]
  simp [pushes]

/-- Unwinding to a depth reaches it, unless the chain is not so deep. -/
@[simp]
theorem depth_unwoundTo (s : Session ε) {d : Nat} (hd : 0 < d) :
    (s.unwoundTo d).chain.depth = min d s.chain.depth :=
  s.chain.stack.depth_keep hd

theorem unwoundTo_of_depth_le (s : Session ε) {d : Nat} (h : s.chain.depth ≤ d) :
    s.unwoundTo d = s := by
  simp only [unwoundTo, pops_of_le h, Stack.keep_of_depth_le s.chain.stack h, Array.append_empty]

/-- A truncation in between does not show. -/
theorem unwoundTo_unwoundTo (s : Session ε) {d e : Nat} (hd : 0 < d) (hde : d ≤ e) :
    (s.unwoundTo e).unwoundTo d = s.unwoundTo d := by
  by_cases he : s.chain.depth ≤ e
  · rw [unwoundTo_of_depth_le s he]
  · have hdepth : (s.unwoundTo e).chain.depth = e := by
      rw [depth_unwoundTo s (by omega), Nat.min_eq_left (by omega)]
    simp only [unwoundTo] at hdepth ⊢
    rw [hdepth, Stack.keep_keep _ hd hde, Array.append_assoc, pops_append hde (by omega)]

/-! ## Cleaning up -/

/-- Above the root, a pop is recorded and takes one frame off. -/
theorem pop_of_one_lt_depth (s : Session ε) (h : 1 < s.chain.depth) :
    pop s = .ok (.ok s.chain.stack.top) (s.unwoundTo (s.chain.depth - 1)) := by
  have hstack := s.chain.stack.pop_of_one_lt_depth h
  have hdepth : (s.chain.stack.keep (s.chain.depth - 1)).depth = s.chain.depth - 1 := by
    rw [Stack.depth_keep _ (by omega)]
    exact Nat.min_eq_left (Nat.sub_le _ _)
  have hpops : pops s.chain.depth (s.chain.depth - 1) = #[.popped (s.chain.depth - 1)] := by
    have hone : s.chain.depth - (s.chain.depth - 1) = 1 := by omega
    simp [pops, hone]
  rw [pop_eq]
  simp only [afterPop, unwoundTo, hpops, Chain.pop, hstack, popEvent]
  simp only [Chain.depth] at hdepth ⊢
  rw [hdepth, Array.push_eq_append]

/-- Popping several frames above the root unwinds the session by their number. -/
theorem popTimes_eq (n : Nat) (s : Session ε) (h : n < s.chain.depth) :
    popTimes n s = .ok () (s.unwoundTo (s.chain.depth - n)) := by
  induction n generalizing s with
  | zero =>
      rw [Nat.sub_zero, unwoundTo_of_depth_le s (Nat.le_refl _)]
      rfl
  | succ n ih =>
      have hdepth : (s.unwoundTo (s.chain.depth - 1)).chain.depth = s.chain.depth - 1 := by
        rw [depth_unwoundTo s (by omega), Nat.min_eq_left (Nat.sub_le _ _)]
      have hrest := ih (s.unwoundTo (s.chain.depth - 1)) (by omega)
      rw [hdepth, unwoundTo_unwoundTo s (by omega) (by omega), Nat.sub_sub, Nat.add_comm 1 n]
        at hrest
      simp only [popTimes, bind, EStateM.bind, pop_of_one_lt_depth s (by omega)]
      exact hrest

/-- Unwinding pops the frames above the depth and no others. -/
theorem unwind_eq (s : Session ε) {d : Nat} (hd : 0 < d) : unwind d s = .ok () (s.unwoundTo d) := by
  change popTimes (s.chain.depth - d) s = _
  by_cases h : s.chain.depth ≤ d
  · rw [Nat.sub_eq_zero_of_le h, unwoundTo_of_depth_le s h]
    rfl
  · rw [popTimes_eq _ s (by omega), Nat.sub_sub_self (by omega)]

/--
The course of cleaning up to a depth: as long as the depth is above it, the current
frame is popped, and a refused pop breaks off.
-/
inductive CleanUp (depth : Nat) : Session ε → Session ε → Prop where
  /-- The depth is not above the one to reach. -/
  | done {s : Session ε} (h : s.chain.depth ≤ depth) : CleanUp depth s s
  /-- A frame is popped, and the clean-up goes on. -/
  | popped {s middle last : Session ε} {frame : Frame ε} (h : depth < s.chain.depth)
      (hpop : pop s = .ok (.ok frame) middle) (rest : CleanUp depth middle last) :
      CleanUp depth s last
  /-- The pop is refused. -/
  | refused {s last : Session ε} {e : Error} (h : depth < s.chain.depth)
      (hpop : pop s = .ok (.error e) last) : CleanUp depth s last

/-- A clean-up always comes to an end, namely in the truncated session, and no pop is refused. -/
theorem cleanUp_iff {d : Nat} (hd : 0 < d) (s last : Session ε) :
    CleanUp d s last ↔ last = s.unwoundTo d := by
  constructor
  · intro h
    induction h with
    | done h => exact (unwoundTo_of_depth_le _ h).symm
    | @popped s middle last frame h hpop rest ih =>
        rw [pop_of_one_lt_depth s (by omega)] at hpop
        cases hpop
        rw [ih, unwoundTo_unwoundTo s hd (by omega)]
    | @refused s last e h hpop =>
        rw [pop_of_one_lt_depth s (by omega)] at hpop
        cases hpop
  · rintro rfl
    -- The number of frames to take off decreases, whatever they hold.
    induction hn : s.chain.depth - d generalizing s with
    | zero =>
        rw [unwoundTo_of_depth_le s (by omega)]
        exact .done (by omega)
    | succ n ih =>
        have hdepth : (s.unwoundTo (s.chain.depth - 1)).chain.depth = s.chain.depth - 1 := by
          rw [depth_unwoundTo s (by omega), Nat.min_eq_left (Nat.sub_le _ _)]
        have hrest := ih (s.unwoundTo (s.chain.depth - 1)) (by omega)
        rw [unwoundTo_unwoundTo s hd (by omega)] at hrest
        exact .popped (by omega) (pop_of_one_lt_depth s (by omega)) hrest

/-! ## Scopes around a computation -/

/-- A scope is a push, the body and a truncation; a fault in the body leaves all as it is. -/
theorem inScope_eq (body : Run ε α) (s : Session ε) :
    inScope body s =
      match body (s.opened 1) with
      | .ok answer inner => .ok answer (inner.unwoundTo s.chain.depth)
      | .error fault inner => .error fault inner := by
  simp only [inScope, ask, bind, EStateM.bind, pushBy_push, ← opened_one]
  cases body (s.opened 1) with
  | error fault inner => rfl
  | ok answer inner =>
      have hunwind := unwind_eq inner s.chain.stack.depth_pos
      simp only [Chain.depth, hunwind]
      rfl

/-- Several scopes are as many pushes, the body and a truncation to the depth at the start. -/
theorem inScopes_succ (body : Run ε α) (n : Nat) (s : Session ε) :
    inScopes body (n + 1) s =
      match body (s.opened (n + 1)) with
      | .ok answer inner => .ok answer (inner.unwoundTo s.chain.depth)
      | .error fault inner => .error fault inner := by
  induction n generalizing s with
  | zero => exact inScope_eq body s
  | succ n ih =>
      have hdepth : (s.opened 1).chain.depth = s.chain.depth + 1 := s.chain.depth_push
      rw [inScopes, inScope_eq, ih, opened_succ, hdepth]
      cases body (s.opened (n + 1 + 1)) with
      | error fault inner => rfl
      | ok answer inner =>
          exact congrArg _ (unwoundTo_unwoundTo inner s.chain.stack.depth_pos (Nat.le_succ _))

/-! ## Commands within scopes -/

/-- What is left of the session `inner` when scopes that began at a depth have ended. -/
structure EndedAt (depth : Nat) (inner after : Session ε) : Prop where
  frames : after.chain.stack.toList = inner.chain.stack.toList.take (min depth inner.chain.depth)
  label : after.chain.hasher = inner.chain.hasher
  log : after.log = inner.log ++ pops inner.chain.depth depth
  saved : after.saved = inner.saved
  popped : after.popped = inner.popped

/-- A session that is unwound to a depth has ended there. -/
theorem endedAt_unwoundTo (s : Session ε) {d : Nat} (hd : 0 < d) : EndedAt d s (s.unwoundTo d) where
  frames := by
    rw [Chain.depth, ← Stack.length_toList, ← List.take_eq_take_min]
    exact s.chain.stack.toList_keep hd
  label := rfl
  log := rfl
  saved := rfl
  popped := rfl

/-- Opening scopes keeps the label of the chain and its frames. -/
theorem sameLabel_opened {label : Hasher} {s : Session ε} (h : s.SameLabel label) (n : Nat) :
    (s.opened n).SameLabel label := by
  refine ⟨?_, h.2⟩
  change (Nat.repeat Chain.push n s.chain).hasher = label
  induction n with
  | zero => exact h.1
  | succ n ih => exact ih

variable [Ord κ]

/--
Commands within one or more scopes: the scopes are opened one after the other, the
commands run, and then the scopes end in the outermost frames of the chain that the
commands left, at most as many as there were at the start.  The answer is that of the
commands, and the events after them are exactly the pops from the depth they left down
to the depth at the start.
-/
theorem nested_scopes_end (dialect : Dialect ε ι ρ) (body : List (Command ε ι)) (n : Nat)
    (s inner : Session ε) (answers : List (Answer ε ρ × Nat))
    (hbody : execAll dialect body (s.opened (n + 1)) = .ok answers inner) :
    ∃ after,
      exec dialect (.nest (n + 1) body) s = .ok (.answers answers) after ∧
      (n = 0 → exec dialect (.scope body) s = .ok (.answers answers) after) ∧
      (∀ last, CleanUp s.chain.depth inner last ↔ last = after) ∧
      EndedAt s.chain.depth inner after ∧
      (dialect.KeepsLabel → s.SameLabel s.chain.hasher →
        after.chain.hasher = s.chain.hasher) := by
  have hdepth : 0 < s.chain.depth := s.chain.stack.depth_pos
  have hrun : inScopes (execAll dialect body) (n + 1) s =
      .ok answers (inner.unwoundTo s.chain.depth) := by
    rw [inScopes_succ, hbody]
  refine ⟨inner.unwoundTo s.chain.depth, ?_, ?_, cleanUp_iff hdepth inner,
    endedAt_unwoundTo inner hdepth, ?_⟩
  · rw [exec]
    simp only [Functor.map, EStateM.map, hrun]
  · rintro rfl
    rw [exec]
    simp only [inScopes] at hrun
    simp only [Functor.map, EStateM.map, hrun]
  · intro hdialect hlabel
    have hinner := (invariant_sameLabel hdialect s.chain.hasher).execAll body _
      (sameLabel_opened hlabel (n + 1))
    rw [hbody] at hinner
    exact hinner.1

/-- The body pops both scopes and a frame below them, and builds other frames in their place. -/
theorem nested_scopes_end_rebuilt :
    let dialect : Dialect (Binding Int64 Value) _ _ := BindingRequest.dialect
    let s := (start .standard .empty : Session (Binding Int64 Value)).opened 2
    let body := [.pop, .pop, .pop, .keyed (.declare 7 .null), .push, .push, .push]
    ∃ answers inner after,
      execAll dialect body (s.opened 2) = .ok answers inner ∧
      inner.chain.depth = 5 ∧
      exec dialect (.nest 2 body) s = .ok (.answers answers) after ∧
      EndedAt 3 inner after ∧
      after.log = inner.log ++ #[.popped 4, .popped 3] ∧
      after.chain.hasher = .standard := by
  intro dialect s body
  obtain ⟨answers, inner, hbody, hdepth⟩ :
      ∃ answers inner, execAll dialect body (s.opened 2) = .ok answers inner ∧
        (inner.chain.depth == 5) = true :=
    exists_ok_of_last (by decide +kernel)
  rw [beq_iff_eq] at hdepth
  rcases nested_scopes_end dialect body 1 s _ _ hbody with ⟨after, hexec, -, -, hended, hlabel⟩
  have hlog := hended.log
  rw [hdepth] at hlog
  refine ⟨answers, inner, after, hbody, hdepth, hexec, hended, hlog, ?_⟩
  exact hlabel BindingRequest.keepsLabel ⟨rfl, by simp [s, opened, start]⟩

end Session
end LexicalScope
