import LexicalScope.Rows.Row
import LexicalScope.Stack.Walk

/-!
# Requests to a stack of rows

The requests that can be put to a stack whose frames are rows, the answers they get,
and the two kinds of step that its walks take: asking a question about a row and
marking a row.
-/

namespace LexicalScope
namespace Rows

/-! ## Steps of a walk -/

/-- A question about a row. -/
inductive Question where
  /-- Does the row contain the integer? -/
  | contains (n : Int64)
  /-- Has the row this length? -/
  | hasLength (n : Nat)
  /-- Is this the question's call with the given number, counted from one? -/
  | isCall (n : Nat)
  deriving DecidableEq

/-- Answers a question about a row, and counts the calls made so far. -/
def Question.ask (question : Question) (calls : Nat) (row : Row) : Bool × Nat :=
  let answer :=
    match question with
    | .contains n => row.contains n
    | .hasLength n => row.length == n
    | .isCall n => calls + 1 == n
  (answer, calls + 1)

/--
Appends the first mark plus the number of rows marked before, wrapped to 64 bits, and
declines once as many rows as the limit allows are marked.
-/
def mark (first : Int64) (limit : Option Nat) (marked : Nat) (row : Row) : Option (Row × Nat) :=
  if limit.all (marked < ·) then some (row.push (first + Int64.ofNat marked), marked + 1) else none

/-! ## Requests and answers -/

/-- How a stack of rows is started. -/
inductive Start where
  /-- From an empty root. -/
  | empty
  /-- From the given root. -/
  | seeded (root : Row)
  deriving DecidableEq

/-- The stack that a start gives. -/
def Start.stack : Start → Stack Row
  | .empty => .ofRoot (.ofList [])
  | .seeded root => .ofRoot root

/-- A request to a stack of rows. -/
inductive Command where
  /-- How many frames are there? -/
  | depth
  /-- Push a frame. -/
  | push (row : Row)
  /-- Pop the current frame. -/
  | pop
  /-- What is the root? -/
  | root
  /-- What is the current frame? -/
  | top
  /-- Is the current frame the root itself? -/
  | topIsRoot
  /-- Append an integer to the current frame. -/
  | topPush (n : Int64)
  /-- Put another row in the place of the current frame. -/
  | topReplace (row : Row)
  /-- What is the frame with this index? -/
  | frame (index : Nat)
  /-- Append an integer to the frame with this index. -/
  | framePush (index : Nat) (n : Int64)
  /-- Which frames come first on the walk over the whole stack? -/
  | walk (limit : Option Nat)
  /-- Which frames come first on the walk below an index? -/
  | walkBelow (index : Nat) (limit : Option Nat)
  /-- Mark the first frames on the walk over the whole stack. -/
  | markAll (first : Int64) (limit : Option Nat)
  /-- Mark the first frames on the walk below an index. -/
  | markBelow (index : Nat) (first : Int64) (limit : Option Nat)
  /-- Which is the innermost frame for which the question is answered with yes? -/
  | position (question : Question)
  /-- What does the stack display as? -/
  | display (layout : Document.Layout)
  /-- Save a copy of the stack. -/
  | save
  /-- Go back to a saved copy. -/
  | restore (copy : Nat)
  /-- Is the stack equal to a saved copy? -/
  | equalsSaved (copy : Nat)
  /-- Is the stack equal to another one, which gets some requests first? -/
  | equalsOther (start : Start) (body : List Command)
  /-- Make some requests in several rounds. -/
  | rounds (n : Nat) (body : List Command)

/-- The answer to a request. -/
inductive Answer where
  /-- The request is fulfilled, and there is nothing to say. -/
  | done
  /-- A number. -/
  | number (n : Nat)
  /-- A truth value. -/
  | flag (b : Bool)
  /-- A row. -/
  | row (row : Row)
  /-- A row, if there is one. -/
  | rowAt (row : Option Row)
  /-- The popped frame, or why it could not be popped. -/
  | popped (outcome : Except Error Row)
  /-- The size hint of a walk at its start and the rows that were taken from it. -/
  | walk (hint : SizeHint) (rows : List Row)
  /-- The index of a frame, if one was found, and how often the question was asked. -/
  | position (index : Option Nat) (calls : Nat)
  /-- A text. -/
  | text (text : String)
  /-- The answers of the last round. -/
  | answers (answers : List Answer)
  /-- There is no saved copy with this number. -/
  | noSuchCopy

end Rows
end LexicalScope
