import LexicalScope.Text.Document

/-!
# Errors of a chain of scopes

The four ways in which a request to a chain of scopes can fail, with the message
and the display of each.
-/

namespace LexicalScope

/-- Why a request to a chain of scopes failed. -/
inductive Error where
  /-- The root frame would have been popped. -/
  | underflow
  /-- No frame that was searched holds the key. -/
  | keyNotFound
  /-- The current frame does not hold the key. -/
  | notInCurrentScope
  /-- There is no frame with this index in a chain of this depth. -/
  | outOfRange (index depth : Nat)
  deriving DecidableEq

namespace Error

/-- The name under which the error is reported. -/
def name : Error → String
  | .underflow => "ScopeUnderflow"
  | .keyNotFound => "KeyNotFound"
  | .notInCurrentScope => "NotInCurrentScope"
  | .outOfRange _ _ => "ScopeOutOfRange"

/-- The sentence that explains the error. -/
def message : Error → String
  | .underflow => "cannot pop the root scope"
  | .keyNotFound => "key not found in any scope"
  | .notInCurrentScope => "key not found in the current scope"
  | .outOfRange index depth =>
      "scope " ++ Decimal.text index ++ " is out of range for a chain of depth " ++
        Decimal.text depth

/-- The fields that an error carries besides its name. -/
def fields : Error → List (List Char × Document)
  | .outOfRange index depth =>
      [("index".toList, .atom (Decimal.ofNat index)), ("depth".toList, .atom (Decimal.ofNat depth))]
  | _ => []

/-- An error displays as its name, or as a record if it carries fields. -/
instance : Display Error where
  document e :=
    match e.fields with
    | [] => .atom e.name.toList
    | fields => .record e.name.toList fields

end Error
end LexicalScope
