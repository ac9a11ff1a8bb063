import LexicalScope.Chain.Visible

/-!
# Chains of names

A chain whose frames hold bare keys.  Adding a key that a frame holds already changes
nothing, not even its spelling, and answers so.

Main results:

- Theorem {lit}`Names.get_add`: a key that was just added is found, under an equal spelling.
-/

namespace LexicalScope

/-- A chain of frames that hold keys. -/
abbrev Names (κ : Type) [BEq κ] :=
  Chain (Member κ)

namespace Names

variable {κ : Type} [BEq κ]

/-! ## Adding -/

/-- Adds a key to the current frame, and answers whether it is new there. -/
def add (c : Names κ) (k : κ) : Bool × Names κ :=
  (c.insert ⟨k⟩).map Option.isNone id

/-- Adds a key to the frame with an index, and answers whether it is new there. -/
def addAt (c : Names κ) (index : Nat) (k : κ) : Except Error Bool × Names κ :=
  (c.insertAt index ⟨k⟩).map (Except.map Option.isNone) id

/-! ## Reading and removing -/

/-- The key as it is spelled in the innermost frame that holds it. -/
def get (c : Names κ) (k : κ) : Except Error κ :=
  (c.lookup k).map Member.key

/-- Removes a key from the innermost frame that holds it, and answers its spelling there. -/
def delete (c : Names κ) (k : κ) : Except Error κ × Names κ :=
  (c.erase k).map (Except.map Member.key) id

/-- Removes a key from the current frame, and answers its spelling there. -/
def deleteLocal (c : Names κ) (k : κ) : Except Error κ × Names κ :=
  (c.eraseLocal k).map (Except.map Member.key) id

/-! ## Display -/

/-- What a frame of keys displays as. -/
def frameDocument [Display κ] (frame : Frame (Member κ)) : Document :=
  .collection (frame.entries.map fun m => Display.document m.key)

/-- What a chain of keys displays as: its frames from the root. -/
def document [Display κ] (c : Names κ) : Document :=
  .record "ScopeSet".toList [("scopes".toList, .sequence (c.stack.toList.map frameDocument))]

/-! ## Basic laws -/

/-- A key that was just added is found, under an equal spelling. -/
theorem get_add [EquivBEq κ] (c : Names κ) (k : κ) :
    ∃ spelling, (c.add k).2.get k = .ok spelling ∧ (spelling == k) = true := by
  have h := Chain.lookup_insert_self c (⟨k⟩ : Member κ)
  change (c.insert ⟨k⟩).2.lookup k = _ at h
  change ∃ spelling, ((c.insert ⟨k⟩).2.lookup k).map Member.key = .ok spelling ∧ _
  rw [h]
  refine ⟨_, rfl, ?_⟩
  cases hfound : c.stack.top.find? k with
  | none => exact BEq.rfl
  | some stored => exact Frame.key_beq_of_find? hfound

end Names
end LexicalScope
