import LexicalScope.Session.Dialect
import LexicalScope.Chain.Visible

/-!
# Commands and answers of a session

A command is one request to a session with a chain: a request about keys, a request
about the frames, or a control structure around a list of commands.  Every command
that runs to its end has an answer.
-/

namespace LexicalScope

/-- How a chain is started. -/
inductive Start (ε : Type) where
  /-- With an empty root and the hasher that nobody chose. -/
  | unchosen
  /-- With an empty root and the hasher of the session. -/
  | empty
  /-- With a root that holds the given entries and has the hasher of the session. -/
  | seeded (entries : List ε)

/-- The chain that a start gives in a session with some hasher. -/
def Start.chain {ε κ : Type} [Entry ε κ] [BEq κ] (start : Start ε) (hasher : Hasher) : Chain ε :=
  match start with
  | .unchosen => .empty hasher.unchosen
  | .empty => .empty hasher
  | .seeded entries => .ofRoot (.ofList hasher entries)

/-- A request to a session, with requests of type `ι` about keys. -/
inductive Command (ε ι : Type) where
  /-- A request about keys. -/
  | keyed (request : ι)
  /-- How many frames are there? -/
  | depth
  /-- Push an empty frame. -/
  | push
  /-- Push a frame with the given entries, and with the given mark if there is one. -/
  | pushFrame (entries : List ε) (mark : Option UInt64)
  /-- Pop the current frame. -/
  | pop
  /-- Push a copy of the frame that was popped last. -/
  | pushPopped
  /-- Run the commands in a scope of their own. -/
  | scope (body : List (Command ε ι))
  /-- Run the commands within the given number of scopes. -/
  | nest (n : Nat) (body : List (Command ε ι))
  /-- Run the commands in the given number of rounds. -/
  | rounds (n : Nat) (body : List (Command ε ι))
  /-- Which hashers do the frames have? -/
  | hashers
  /-- What is the root? -/
  | root
  /-- What is the current frame? -/
  | top
  /-- What is the frame with this index? -/
  | frame (index : Nat)
  /-- Which frames are there, innermost first? -/
  | frames
  /-- Which frames are below an index, innermost first? -/
  | framesBelow (index : Nat)
  /-- Which is the innermost frame with this many entries? -/
  | positionOfSize (n : Nat)
  /-- Which entries are visible? -/
  | visible
  /-- Which frames hold the first visible entries? -/
  | visibleFrames (n : Nat)
  /-- What is known of the number of visible entries before and after the walk? -/
  | visibleHints
  /-- What does the chain display as? -/
  | display (layout : Document.Layout)
  /-- Save a copy of the chain. -/
  | save
  /-- Go back to a saved copy. -/
  | restore (copy : Nat)
  /-- Is the chain equal to a saved copy? -/
  | equalsSaved (copy : Nat)
  /-- Is the stack of the chain equal to that of a saved copy? -/
  | stackEqualsSaved (copy : Nat)
  /-- Is the chain equal to another one, on which some commands are run first? -/
  | equalsOther (start : Start ε) (mark : Option UInt64) (body : List (Command ε ι))

/-- The answer to a command, with answers of type `ρ` to requests about keys. -/
inductive Answer (ε ρ : Type) {κ : Type} [Entry ε κ] [BEq κ] where
  /-- The answer to a request about keys. -/
  | keyed (answer : ρ)
  /-- The command is carried out, and there is nothing to say. -/
  | done
  /-- A number. -/
  | number (n : Nat)
  /-- A truth value. -/
  | flag (b : Bool)
  /-- The index of a frame, if there is one. -/
  | index (index : Option Nat)
  /-- The popped frame, or why it could not be popped. -/
  | popped (outcome : Except Error (Frame ε))
  /-- A frame. -/
  | frame (frame : Frame ε)
  /-- A frame, if there is one. -/
  | frameAt (frame : Option (Frame ε))
  /-- Frames. -/
  | frames (frames : List (Frame ε))
  /-- Hashers. -/
  | hashers (hashers : List Hasher)
  /-- Entries, grouped by the frames that hold them. -/
  | groups (groups : List (Nat × List ε))
  /-- Indexes of frames. -/
  | indexes (indexes : List Nat)
  /-- Size hints before and after a walk. -/
  | hints (before after : SizeHint)
  /-- A text, if there is one. -/
  | text (text : Option String)
  /-- The answers to a list of commands, each with the depth right after its command. -/
  | answers (answers : List (Answer ε ρ × Nat))
  /-- There is no saved copy with this number. -/
  | noSuchCopy

end LexicalScope
