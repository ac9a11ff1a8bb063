import LexicalScope.Chain.Visible

/-!
# Chains of bindings

A chain whose frames bind keys to values.  A declaration binds a key in the current
frame, or in one given by its index, and shadows the bindings of outer frames.  An
assignment changes the value of a binding where it stands, and never makes a binding.

Main results:

- Theorem {lit}`Bindings.get_declare`: a key has the value that was last declared for it.
-/

namespace LexicalScope

/-- A chain of frames that bind keys to values. -/
abbrev Bindings (κ ν : Type) [BEq κ] [BEq ν] :=
  Chain (Binding κ ν)

/--
Applies a function to the value that a frame binds a key to, and answers the binding
as it was.
-/
def Frame.modify? {κ ν : Type} [BEq κ] [BEq ν] (frame : Frame (Binding κ ν)) (k : κ) (f : ν → ν) :
    Option (Binding κ ν × Frame (Binding κ ν)) :=
  (frame.find? k).map fun old => (old, (frame.insert ⟨old.key, f old.value⟩).2)

namespace Bindings

variable {κ ν : Type} [BEq κ] [BEq ν]

/-! ## Declaring -/

/-- Binds a key in the current frame, and answers the value that it was bound to there. -/
def declare (c : Bindings κ ν) (k : κ) (v : ν) : Option ν × Bindings κ ν :=
  (c.insert ⟨k, v⟩).map (fun replaced => replaced.map Binding.value) id

/-- Binds a key in the frame with an index, and answers the value that it was bound to there. -/
def declareAt (c : Bindings κ ν) (index : Nat) (k : κ) (v : ν) :
    Except Error (Option ν) × Bindings κ ν :=
  (c.insertAt index ⟨k, v⟩).map (Except.map fun replaced => replaced.map Binding.value) id

/-! ## Reading -/

/-- The value of the innermost binding of a key. -/
def get (c : Bindings κ ν) (k : κ) : Except Error ν :=
  (c.lookup k).map Binding.value

/-- The value of the innermost binding of a key below the frame with an index. -/
def getBelow (c : Bindings κ ν) (index : Nat) (k : κ) : Except Error ν :=
  (c.lookupBelow index k).map Binding.value

/-! ## Assigning -/

/-- Changes the value of the innermost binding below an index, and answers the old value. -/
def modifyBelow (c : Bindings κ ν) (index : Nat) (k : κ) (f : ν → ν) :
    Except Error ν × Bindings κ ν :=
  (c.changeBelow index fun frame => frame.modify? k f).map (Except.map Binding.value) id

/-- Changes the value of the innermost binding, and answers the old value. -/
def modify (c : Bindings κ ν) (k : κ) (f : ν → ν) : Except Error ν × Bindings κ ν :=
  c.modifyBelow c.depth k f

/-- Assigns a value to the innermost binding of a key, and answers the old value. -/
def assign (c : Bindings κ ν) (k : κ) (v : ν) : Except Error ν × Bindings κ ν :=
  c.modify k fun _ => v

/-! ## Deleting -/

/-- Removes the innermost binding of a key, and answers its value. -/
def delete (c : Bindings κ ν) (k : κ) : Except Error ν × Bindings κ ν :=
  (c.erase k).map (Except.map Binding.value) id

/-- Removes the binding of a key in the current frame, and answers its value. -/
def deleteLocal (c : Bindings κ ν) (k : κ) : Except Error ν × Bindings κ ν :=
  (c.eraseLocal k).map (Except.map Binding.value) id

/-! ## Keys and display -/

/-- The visible keys, grouped by the frames that bind them. -/
def keyGroups [Ord κ] (c : Bindings κ ν) : List (Nat × List κ) :=
  c.visibleGroups.map fun (index, entries) => (index, entries.map Binding.key)

/-- What a frame of bindings displays as. -/
def frameDocument [Display κ] [Display ν] (frame : Frame (Binding κ ν)) : Document :=
  .table (frame.entries.map fun b => (Display.document b.key, Display.document b.value))

/-- What a chain of bindings displays as: its frames from the root. -/
def document [Display κ] [Display ν] (c : Bindings κ ν) : Document :=
  .record "ScopeMap".toList [("scopes".toList, .sequence (c.stack.toList.map frameDocument))]

/-! ## Basic laws -/

/-- A key has the value that was last declared for it. -/
theorem get_declare [EquivBEq κ] (c : Bindings κ ν) (k : κ) (v : ν) :
    (c.declare k v).2.get k = .ok v := by
  have h := Chain.lookup_insert_self c (⟨k, v⟩ : Binding κ ν)
  change (c.insert ⟨k, v⟩).2.lookup k = _ at h
  change ((c.insert ⟨k, v⟩).2.lookup k).map Binding.value = _
  rw [h]
  cases c.stack.top.find? k <;> rfl

end Bindings
end LexicalScope
