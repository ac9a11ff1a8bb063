import LexicalScope.Text.Document

/-!
# Values

The values that bindings hold.  Equality compares values of the same type by what
they are, and values of different types are never equal.  The value {lit}`nan` is
equal to nothing, itself included, and so is every list that contains it.

Main results:

- Theorem {lit}`Value.beq_self_iff`: the values that are equal to themselves are those that
  {lit}`nan` does not occur in.
-/

namespace LexicalScope

/-- A value that a key can be bound to. -/
inductive Value where
  /-- The value that stands for no value. -/
  | null
  /-- A truth value. -/
  | bool (b : Bool)
  /-- A 64-bit integer. -/
  | int (n : Int64)
  /-- A text. -/
  | text (s : String)
  /-- A list of values. -/
  | list (items : List Value)
  /-- A value that is equal to nothing. -/
  | nan

namespace Value

/-! ## Equality -/

mutual

/-- Whether two values are equal. -/
def same : Value → Value → Bool
  | .null, .null => true
  | .bool a, .bool b => a == b
  | .int a, .int b => a == b
  | .text a, .text b => a == b
  | .list as, .list bs => sameItems as bs
  | _, _ => false

/-- Whether two lists have equally many values and each is equal to its counterpart. -/
def sameItems : List Value → List Value → Bool
  | [], [] => true
  | a :: as, b :: bs => same a b && sameItems as bs
  | _, _ => false

end

instance : BEq Value where
  beq := same

mutual

/-- The value {lit}`nan` does not occur in a value. -/
def NanFree : Value → Prop
  | .null | .bool _ | .int _ | .text _ => True
  | .list items => AllNanFree items
  | .nan => False

/-- The value {lit}`nan` does not occur in any of the values. -/
def AllNanFree : List Value → Prop
  | [] => True
  | item :: rest => NanFree item ∧ AllNanFree rest

end

mutual

/-- A value is the same as itself if and only if {lit}`nan` does not occur in it. -/
theorem same_self_iff : ∀ v : Value, same v v = true ↔ v.NanFree
  | .null => iff_of_true rfl trivial
  | .bool b => iff_of_true (by simp [same]) trivial
  | .int n => iff_of_true (by simp [same]) trivial
  | .text s => iff_of_true (by simp [same]) trivial
  | .list items => by
    rw [same, NanFree]
    exact sameItems_self_iff items
  | .nan => iff_of_false (by simp [same]) id

theorem sameItems_self_iff : ∀ items : List Value, sameItems items items = true ↔ AllNanFree items
  | [] => iff_of_true rfl trivial
  | item :: rest => by
    rw [sameItems, Bool.and_eq_true, AllNanFree, same_self_iff item, sameItems_self_iff rest]

end

mutual

/-- Being the same is symmetric. -/
theorem same_symm : ∀ {a b : Value}, same a b = true → same b a = true
  | .null, .null, _ => rfl
  | .bool _, .bool _, h => BEq.symm (α := Bool) h
  | .int _, .int _, h => BEq.symm (α := Int64) h
  | .text _, .text _, h => BEq.symm (α := String) h
  | .list _, .list _, h => sameItems_symm h

theorem sameItems_symm : ∀ {as bs : List Value}, sameItems as bs = true → sameItems bs as = true
  | [], [], _ => rfl
  | _ :: _, _ :: _, h => by
    rw [sameItems, Bool.and_eq_true] at h ⊢
    exact ⟨same_symm h.1, sameItems_symm h.2⟩

end

mutual

/-- Being the same is transitive. -/
theorem same_trans : ∀ {a b c : Value}, same a b = true → same b c = true → same a c = true
  | .null, .null, .null, _, _ => rfl
  | .bool _, .bool _, .bool _, h, h' => BEq.trans (α := Bool) h h'
  | .int _, .int _, .int _, h, h' => BEq.trans (α := Int64) h h'
  | .text _, .text _, .text _, h, h' => BEq.trans (α := String) h h'
  | .list _, .list _, .list _, h, h' => sameItems_trans h h'

theorem sameItems_trans : ∀ {as bs cs : List Value}, sameItems as bs = true →
    sameItems bs cs = true → sameItems as cs = true
  | [], [], [], _, _ => rfl
  | _ :: _, _ :: _, _ :: _, h, h' => by
    rw [sameItems, Bool.and_eq_true] at h h' ⊢
    exact ⟨same_trans h.1 h'.1, sameItems_trans h.2 h'.2⟩

end

/-- Equality of values is symmetric and transitive, but not reflexive. -/
instance : PartialEquivBEq Value where
  symm := same_symm
  trans := same_trans

/-- A value is equal to itself if and only if {lit}`nan` does not occur in it. -/
theorem beq_self_iff (v : Value) : (v == v) = true ↔ v.NanFree :=
  same_self_iff v

/-! ## Display -/

mutual

/-- What a value displays as. -/
def toDocument : Value → Document
  | .null => .atom "null".toList
  | .bool true => .atom "true".toList
  | .bool false => .atom "false".toList
  | .int n => Display.document n
  | .text s => Display.document s
  | .list items => .sequence (itemDocuments items)
  | .nan => .atom "NaN".toList

/-- What the items of a list display as. -/
def itemDocuments : List Value → List Document
  | [] => []
  | item :: rest => toDocument item :: itemDocuments rest

end

instance : Display Value where
  document := toDocument

end Value
end LexicalScope
