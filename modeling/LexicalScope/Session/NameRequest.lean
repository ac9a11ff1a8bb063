import LexicalScope.Chain.Names
import LexicalScope.Session.Dialect

/-!
# Requests to a chain of names

The requests about the keys of a chain of names, their answers, and how the chain
fulfils them.  None of them is ever a fault.
-/

namespace LexicalScope

/-- A request about the keys of a chain of names. -/
inductive NameRequest (κ : Type) where
  /-- Add a key to the current frame. -/
  | add (key : κ)
  /-- Add a key to the frame with an index. -/
  | addAt (index : Nat) (key : κ)
  /-- How is the key spelled where it is found? -/
  | get (key : κ)
  /-- Is the key present? -/
  | has (key : κ)
  /-- Does the current frame hold the key? -/
  | hasLocal (key : κ)
  /-- Does the frame with an index hold the key? -/
  | hasAt (index : Nat) (key : κ)
  /-- Which is the innermost frame that holds the key? -/
  | resolve (key : κ)
  /-- Remove the key from the innermost frame that holds it. -/
  | delete (key : κ)
  /-- Remove the key from the current frame. -/
  | deleteLocal (key : κ)

/-- The answer to a request about the keys of a chain of names. -/
inductive NameAnswer (κ : Type) where
  /-- Whether a key by index was added as a new one, or why it was not added. -/
  | added (outcome : Except Error Bool)
  /-- A key as it is spelled where it was found, or why it was not found. -/
  | outcome (outcome : Except Error κ)
  /-- A truth value. -/
  | flag (b : Bool)
  /-- The index of a frame, if there is one. -/
  | index (index : Option Nat)

namespace NameRequest

variable {κ : Type} [BEq κ]

/-- How a chain of names fulfils a request. -/
def fulfil (request : NameRequest κ) (c : Names κ) : Except Fault (NameAnswer κ) × Names κ :=
  match request with
  | .add key => (c.add key).map (fun added => .ok (.flag added)) id
  | .addAt index key => (c.addAt index key).map (fun outcome => .ok (.added outcome)) id
  | .get key => (.ok (.outcome (c.get key)), c)
  | .has key => (.ok (.flag (c.has key)), c)
  | .hasLocal key => (.ok (.flag (c.hasLocal key)), c)
  | .hasAt index key => (.ok (.flag (c.hasAt index key)), c)
  | .resolve key => (.ok (.index (c.resolve key)), c)
  | .delete key => (c.delete key).map (fun outcome => .ok (.outcome outcome)) id
  | .deleteLocal key => (c.deleteLocal key).map (fun outcome => .ok (.outcome outcome)) id

/-- The dialect of chains of names. -/
def dialect [Display κ] : Dialect (Member κ) (NameRequest κ) (NameAnswer κ) where
  fulfil := fulfil
  document := Names.document

end NameRequest
end LexicalScope
