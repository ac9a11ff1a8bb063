import LexicalScope.Text.Document

/-!
# Events and rounds

What all sessions have in common, whatever their stack holds.  A session records every
push, every pop and every refusal to pop the root, in the order in which they happen, and
nothing else; and it can run one computation several times in a row.
-/

namespace LexicalScope

/-! ## Events -/

/-- Something that happened to the frames of a stack. -/
inductive Event where
  /-- A frame was pushed, and the depth is now the given one. -/
  | pushed (depth : Nat)
  /-- A frame was popped, and the depth is now the given one. -/
  | popped (depth : Nat)
  /-- The root would have been popped, which was refused. -/
  | refused
  deriving DecidableEq

namespace Event

/-- How important an event is. -/
def level : Event → String
  | .pushed _ => "TRACE"
  | .popped _ => "TRACE"
  | .refused => "DEBUG"

/-- The sentence that describes an event. -/
def message : Event → String
  | .pushed depth => "pushed scope, depth is now " ++ Decimal.text depth
  | .popped depth => "popped scope, depth is now " ++ Decimal.text depth
  | .refused => "refusing to pop the root scope"

/-- The line of a log that records an event. -/
def line (event : Event) : String :=
  event.level ++ " " ++ event.message

end Event

/-! ## Rounds -/

variable {m : Type → Type} [Monad m] {α : Type}

/-- Runs the body in the given number of rounds and answers the last one, if there was any. -/
def rounds (body : m α) : Nat → m (Option α)
  | 0 => pure none
  | n + 1 => do
    let _ ← rounds body n
    some <$> body

end LexicalScope
