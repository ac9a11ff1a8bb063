import LexicalScope.Text.Document

/-!
# Keys that ignore the case of ASCII letters

A key that keeps the spelling it was written in, but is compared and ordered with
the letters {lit}`A` to {lit}`Z` lowered.  No other letter is folded, so two
spellings that differ in the case of another letter are different keys.  The folded
spelling is kept beside the spelling, since every comparison needs it.

Main results:

- Theorem {lit}`CaseFolded.spelling_inj`: the spelling determines the key.
- Theorem {lit}`CaseFolded.beq_iff`: two keys are equal exactly when their folded
  spellings are.
-/

namespace LexicalScope

/-- A spelling that is compared without regard to the case of ASCII letters. -/
structure CaseFolded where
  /-- The key as it was written. -/
  spelling : String
  /-- The spelling with the letters A to Z lowered. -/
  folded : String := spelling.map Char.toLower
  /-- The folded spelling belongs to the spelling. -/
  folded_eq : folded = spelling.map Char.toLower := by rfl

namespace CaseFolded

/-- The key that is written in the given spelling. -/
def ofSpelling (spelling : String) : CaseFolded where
  spelling := spelling

instance : BEq CaseFolded where
  beq a b := a.folded == b.folded

instance : Ord CaseFolded where
  compare a b := compare a.folded b.folded

/-- A key displays in the spelling it was written in. -/
instance : Display CaseFolded where
  document k := Display.document k.spelling

/-- The spelling determines the key. -/
theorem spelling_inj {a b : CaseFolded} : a.spelling = b.spelling ↔ a = b := by
  obtain ⟨_, _, ha⟩ := a
  obtain ⟨_, _, hb⟩ := b
  subst ha hb
  simp only [mk.injEq]
  exact ⟨fun h => ⟨h, by rw [h]⟩, fun h => h.1⟩

/-- Two keys are equal exactly when their folded spellings are. -/
theorem beq_iff (a b : CaseFolded) : (a == b) = true ↔ a.folded = b.folded :=
  beq_iff_eq (a := a.folded)

instance : EquivBEq CaseFolded where
  rfl := by simp [beq_iff]
  symm h := by simp_all [beq_iff]
  trans h₁ h₂ := by simp_all [beq_iff]

/-- Keys are ordered as their folded spellings are. -/
instance : Std.TransOrd CaseFolded where
  eq_swap {a b} := by
    change compare a.folded b.folded = (compare b.folded a.folded).swap
    exact Std.OrientedCmp.eq_swap
  isLE_trans {a b c} (hab : (compare a.folded b.folded).isLE = true)
      (hbc : (compare b.folded c.folded).isLE = true) := by
    change (compare a.folded c.folded).isLE = true
    exact Std.TransCmp.isLE_trans hab hbc

/-- In this order, equal keys have the same place, and no others do. -/
instance : Std.LawfulBEqOrd CaseFolded where
  compare_eq_iff_beq {a b} := by
    rw [beq_iff]
    change compare a.folded b.folded = .eq ↔ _
    exact Std.compare_eq_iff_eq

end CaseFolded
end LexicalScope
