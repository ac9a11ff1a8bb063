import LexicalScope.Session.Command
import LexicalScope.Session.Event

/-!
# Sessions

A session holds a chain, the copies of it that were saved, the frame that was popped
last, and the events of the current step.  A computation on a session may be given up
by a fault; the session then stays as it was at that moment.

Main results:

- Definition {lit}`Session.inScope`: a scope opens one frame, and when its body has ended,
  frames are popped as long as the depth is above the depth at the start.
-/

namespace LexicalScope

/-- A chain with its saved copies, the frame popped last and the events of the current step. -/
structure Session (ε : Type) {κ : Type} [Entry ε κ] [BEq κ] where
  /-- The hasher of chains and frames that are made without a mark of their own. -/
  hasher : Hasher
  /-- The chain. -/
  chain : Chain ε
  /-- The saved copies, in the order of saving. -/
  saved : Array (Chain ε)
  /-- The frame that was popped last. -/
  popped : Option (Frame ε)
  /-- What happened in the current step. -/
  log : Array Event

namespace Session

variable {ε κ : Type} [Entry ε κ] [BEq κ]

/-- A session in which nothing has happened yet. -/
def start (hasher : Hasher) (start : Start ε) : Session ε :=
  ⟨hasher, start.chain hasher, #[], none, #[]⟩

/-- A computation on a session, which a fault can end. -/
abbrev Run (ε : Type) {κ : Type} [Entry ε κ] [BEq κ] :=
  EStateM Fault (Session ε)

/-! ## The chain of a session -/

/-- Asks something about the chain. -/
def ask {α : Type} (f : Chain ε → α) : Run ε α := fun s =>
  .ok (f s.chain) s

/-- Changes the chain and hands out what the change answers. -/
def change {α : Type} (f : Chain ε → α × Chain ε) : Run ε α :=
  fun ⟨hasher, chain, saved, popped, log⟩ =>
    let (answer, changed) := f chain
    .ok answer ⟨hasher, changed, saved, popped, log⟩

/-- Records an event. -/
def record (event : Event) : Run ε Unit := fun ⟨hasher, chain, saved, popped, log⟩ =>
  .ok () ⟨hasher, chain, saved, popped, log.push event⟩

/-- Changes the chain by a push, which is recorded with the new depth. -/
def pushBy (f : Chain ε → Chain ε) : Run ε Unit := do
  change fun c => ((), f c)
  record (.pushed (← ask Chain.depth))

/-- Pops the current frame, unless it is the root; either is recorded. -/
def pop : Run ε (Except Error (Frame ε)) := do
  let outcome ← change Chain.pop
  match outcome with
  | .ok _ => record (.popped (← ask Chain.depth))
  | .error _ => record .refused
  return outcome

/-! ## Scopes -/

/-- Pops frames the given number of times, and stops early at the root. -/
def popTimes : Nat → Run ε Unit
  | 0 => return ()
  | n + 1 => do
    match ← pop with
    | .ok _ => popTimes n
    | .error _ => return ()

/-- Pops frames as long as the depth is above the given one. -/
def unwind (depth : Nat) : Run ε Unit := do
  popTimes ((← ask Chain.depth) - depth)

/-- Runs the body in a scope of its own, and afterwards goes back to the depth before it. -/
def inScope {α : Type} (body : Run ε α) : Run ε α := do
  let depth ← ask Chain.depth
  pushBy Chain.push
  let answer ← body
  unwind depth
  return answer

/-- Runs the body within the given number of scopes. -/
def inScopes {α : Type} (body : Run ε α) : Nat → Run ε α
  | 0 => body
  | n + 1 => inScope (inScopes body n)

/-! ## A second chain -/

/--
Runs the body on a chain of its own, with no saved copies and no popped frame, and
answers the chain it leaves.  Of the second session only the events are kept.
-/
def aside {α : Type} (hasher : Hasher) (start : Start ε) (body : Run ε α) : Run ε (Chain ε) :=
  fun ⟨inForce, chain, saved, popped, log⟩ =>
    match body ⟨hasher, start.chain hasher, #[], none, log⟩ with
    | .ok _ other => .ok other.chain ⟨inForce, chain, saved, popped, other.log⟩
    | .error fault other => .error fault ⟨inForce, chain, saved, popped, other.log⟩

end Session
end LexicalScope
