import LexicalScope.Chain.Bindings
import LexicalScope.Session.Dialect

/-!
# Requests to a chain of bindings

The requests about the keys of a chain of bindings, their answers, and how the chain
fulfils them.  Only a demand for the value of a key that is not bound is a fault;
every other failure is an answer.
-/

namespace LexicalScope

/-- A request about the keys of a chain of bindings. -/
inductive BindingRequest (κ ν : Type) where
  /-- Bind a key in the current frame. -/
  | declare (key : κ) (value : ν)
  /-- Bind a key in the frame with an index. -/
  | declareAt (index : Nat) (key : κ) (value : ν)
  /-- What is the key bound to? -/
  | get (key : κ)
  /-- What is the key bound to in the frames below an index? -/
  | getBelow (index : Nat) (key : κ)
  /-- Write over the value that a look-up of the key finds. -/
  | overwrite (key : κ) (value : ν)
  /-- Write over the value that a look-up of the key below an index finds. -/
  | overwriteBelow (index : Nat) (key : κ) (value : ν)
  /-- Assign a value to the innermost binding of the key. -/
  | assign (key : κ) (value : ν)
  /-- Is the key bound? -/
  | has (key : κ)
  /-- Does the current frame bind the key? -/
  | hasLocal (key : κ)
  /-- Does the frame with an index bind the key? -/
  | hasAt (index : Nat) (key : κ)
  /-- Which frame holds the innermost binding of the key? -/
  | resolve (key : κ)
  /-- Remove the innermost binding of the key. -/
  | delete (key : κ)
  /-- Remove the binding of the key in the current frame. -/
  | deleteLocal (key : κ)
  /-- What is the key bound to, given that it must be bound? -/
  | demand (key : κ)
  /-- Which keys are visible? -/
  | keys

/-- The answer to a request about the keys of a chain of bindings. -/
inductive BindingAnswer (κ ν : Type) where
  /-- The value that a declaration replaced, if there was one. -/
  | replaced (value : Option ν)
  /-- The value that a declaration by index replaced, or why there was no declaration. -/
  | replacedAt (outcome : Except Error (Option ν))
  /-- A value, or why there is none. -/
  | outcome (outcome : Except Error ν)
  /-- A truth value. -/
  | flag (b : Bool)
  /-- The index of a frame, if there is one. -/
  | index (index : Option Nat)
  /-- A value. -/
  | value (value : ν)
  /-- Keys, grouped by the frames that bind them. -/
  | keys (groups : List (Nat × List κ))

namespace BindingRequest

variable {κ ν : Type} [BEq κ] [BEq ν] [Ord κ]

/-- How a chain of bindings fulfils a request. -/
def fulfil (request : BindingRequest κ ν) (c : Bindings κ ν) :
    Except Fault (BindingAnswer κ ν) × Bindings κ ν :=
  match request with
  | .declare key value => (c.declare key value).map (fun old => .ok (.replaced old)) id
  | .declareAt index key value =>
    (c.declareAt index key value).map (fun outcome => .ok (.replacedAt outcome)) id
  | .get key => (.ok (.outcome (c.get key)), c)
  | .getBelow index key => (.ok (.outcome (c.getBelow index key)), c)
  | .overwrite key value =>
    (c.modify key fun _ => value).map (fun outcome => .ok (.outcome outcome)) id
  | .overwriteBelow index key value =>
    (c.modifyBelow index key fun _ => value).map (fun outcome => .ok (.outcome outcome)) id
  | .assign key value => (c.assign key value).map (fun outcome => .ok (.outcome outcome)) id
  | .has key => (.ok (.flag (c.has key)), c)
  | .hasLocal key => (.ok (.flag (c.hasLocal key)), c)
  | .hasAt index key => (.ok (.flag (c.hasAt index key)), c)
  | .resolve key => (.ok (.index (c.resolve key)), c)
  | .delete key => (c.delete key).map (fun outcome => .ok (.outcome outcome)) id
  | .deleteLocal key => (c.deleteLocal key).map (fun outcome => .ok (.outcome outcome)) id
  | .demand key =>
    match c.get key with
    | .ok value => (.ok (.value value), c)
    | .error _ => (.error .unbound, c)
  | .keys => (.ok (.keys c.keyGroups), c)

/-- A demand leaves the chain as it is, whether it is a fault or not. -/
theorem fulfil_demand (key : κ) (c : Bindings κ ν) : ((demand key).fulfil c).2 = c := by
  rw [fulfil]
  cases c.get key <;> rfl

/-- The dialect of chains of bindings. -/
def dialect [Display κ] [Display ν] :
    Dialect (Binding κ ν) (BindingRequest κ ν) (BindingAnswer κ ν) where
  fulfil := fulfil
  document := Bindings.document

end BindingRequest
end LexicalScope
