import LexicalScope.Frame.Basic
import LexicalScope.Stack.Walk

/-!
# Chains of scopes

A chain is a stack of frames together with the hasher that its new frames get.  That
hasher is fixed when the chain is made; frames that come from elsewhere keep their own.  An
operation that can fail gives the chain after it, which is then the chain before it.

Main results:

- Theorem {lit}`Chain.pop_push`: a scope that is opened and closed at once leaves no trace.
-/

namespace LexicalScope

/-- A stack of frames and the hasher of the frames to come. -/
structure Chain (ε : Type) {κ : Type} [Entry ε κ] [BEq κ] where
  /-- The hasher that new frames get. -/
  hasher : Hasher
  /-- The frames. -/
  stack : Stack (Frame ε)

namespace Chain

variable {ε κ : Type} [Entry ε κ] [BEq κ]

/-- The chain whose root frame is empty. -/
def empty (hasher : Hasher) : Chain ε :=
  ⟨hasher, .ofRoot (.empty hasher)⟩

/-- The chain with a given root frame, whose hasher later frames get too. -/
def ofRoot (root : Frame ε) : Chain ε :=
  ⟨root.hasher, .ofRoot root⟩

/-- How many frames there are, the root included. -/
def depth (c : Chain ε) : Nat :=
  c.stack.depth

/-- Two chains are equal if their stacks are, whatever hashers they use. -/
instance : BEq (Chain ε) where
  beq a b := a.stack == b.stack

/-- Puts a given frame on top. -/
def pushFrame (c : Chain ε) (frame : Frame ε) : Chain ε :=
  { c with stack := c.stack.push frame }

/-- Puts an empty frame on top. -/
def push (c : Chain ε) : Chain ε :=
  c.pushFrame (.empty c.hasher)

/-- Takes the current frame off, unless it is the root. -/
def pop (c : Chain ε) : Except Error (Frame ε) × Chain ε :=
  let (outcome, stack) := c.stack.pop
  (outcome, { c with stack := stack })

/-- The hashers of all frames, from the root. -/
def hashers (c : Chain ε) : List Hasher :=
  c.stack.toList.map Frame.hasher

@[simp]
theorem depth_push (c : Chain ε) : c.push.depth = c.depth + 1 :=
  Stack.depth_push _ _

@[simp]
theorem depth_pushFrame (c : Chain ε) (frame : Frame ε) :
    (c.pushFrame frame).depth = c.depth + 1 :=
  Stack.depth_push _ _

/-- A scope that is opened and closed at once leaves no trace. -/
@[simp]
theorem pop_push (c : Chain ε) : c.push.pop = (.ok (.empty c.hasher), c) := by
  simp [pop, push, pushFrame]

end Chain
end LexicalScope
