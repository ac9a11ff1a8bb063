import LexicalScope.Text.Document

/-!
# Entries of a frame

What a frame holds for a key.  A {lit}`Binding` holds a value for it, and a
{lit}`Member` holds just the key as it was spelled.  The class {lit}`Entry` says what
frames need to know of either.

Main results:

- Field {lit}`Entry.key_replace`: putting an entry over a stored one keeps the stored key.
-/

namespace LexicalScope

/-- Types whose values a frame holds under a key. -/
class Entry (ε : Type) (κ : outParam Type) where
  /-- The key under which the entry is held. -/
  key : ε → κ
  /-- What is held after the second entry is put over the first one, whose key is equal. -/
  replace : ε → ε → ε
  /-- Whether two entries with equal keys hold the same. -/
  agree : ε → ε → Bool
  /-- The stored key stays as it was spelled. -/
  key_replace : ∀ stored new : ε, key (replace stored new) = key stored

/-- A key and the value it is bound to. -/
structure Binding (κ ν : Type) where
  /-- The key, as it was spelled when it was bound. -/
  key : κ
  /-- The value. -/
  value : ν

/-- A key that is present. -/
structure Member (κ : Type) where
  /-- The key, as it was spelled when it was added. -/
  key : κ

variable {κ ν : Type}

/-- A new binding brings its value and keeps the stored key. -/
instance [BEq ν] : Entry (Binding κ ν) κ where
  key b := b.key
  replace stored new := { stored with value := new.value }
  agree a b := a.value == b.value
  key_replace _ _ := rfl

/-- A key that is present stays as it is. -/
instance : Entry (Member κ) κ where
  key m := m.key
  replace stored _ := stored
  agree _ _ := true
  key_replace _ _ := rfl

end LexicalScope
