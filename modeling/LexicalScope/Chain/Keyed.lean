import LexicalScope.Chain.Basic

/-!
# Entries by key

Looking up, inserting and erasing entries of a chain by their key.  A look-up sees
the innermost frame that holds the key.  Inserting goes to the current frame or to a
frame given by its index, and never to any other.  Erasing takes the innermost entry
out and so uncovers the next one.

Main results:

- Theorem {lit}`Chain.lookup_insert_self`: what was just inserted is what is found.
-/

namespace LexicalScope
namespace Chain

variable {ε κ : Type} [Entry ε κ] [BEq κ]

/-! ## Look-up -/

/-- The entry in the innermost frame below `x` that holds the key. -/
def lookupBelow (c : Chain ε) (x : Nat) (k : κ) : Except Error ε :=
  match c.stack.findSomeBelow? x fun frame => frame.find? k with
  | some entry => .ok entry
  | none => .error .keyNotFound

/-- The entry in the innermost frame that holds the key. -/
def lookup (c : Chain ε) (k : κ) : Except Error ε :=
  c.lookupBelow c.depth k

/-- Whether some frame holds the key. -/
def has (c : Chain ε) (k : κ) : Bool :=
  c.stack.anyBelow c.depth fun frame => frame.contains k

/-- Whether the current frame holds the key. -/
def hasLocal (c : Chain ε) (k : κ) : Bool :=
  c.stack.top.contains k

/-- Whether there is a frame with the index and it holds the key. -/
def hasAt (c : Chain ε) (index : Nat) (k : κ) : Bool :=
  (c.stack.frame? index).any fun frame => frame.contains k

/-- The index of the innermost frame that holds the key. -/
def resolve (c : Chain ε) (k : κ) : Option Nat :=
  c.stack.position fun frame => frame.contains k

/-! ## Inserting -/

/-- Inserts an entry into the current frame, and answers the one that it replaces there. -/
def insert (c : Chain ε) (entry : ε) : Option ε × Chain ε :=
  let (replaced, stack) := c.stack.modifyTop fun frame => frame.insert entry
  (replaced, { c with stack := stack })

/-- Inserts an entry into the frame with an index, and answers the one that it replaces there. -/
def insertAt (c : Chain ε) (index : Nat) (entry : ε) : Except Error (Option ε) × Chain ε :=
  match c.stack.modifyFrame index fun frame => frame.insert entry with
  | (some replaced, stack) => (.ok replaced, { c with stack := stack })
  | (none, stack) => (.error (.outOfRange index stack.depth), { c with stack := stack })

/-! ## Changing and erasing -/

/-- Changes the innermost frame below `x` on which `f` succeeds, and answers what `f` answers. -/
def changeBelow (c : Chain ε) (x : Nat) (f : Frame ε → Option (ε × Frame ε)) :
    Except Error ε × Chain ε :=
  match c.stack.changeFirstBelow x f with
  | (some entry, stack) => (.ok entry, { c with stack := stack })
  | (none, stack) => (.error .keyNotFound, { c with stack := stack })

/-- Takes out the entry in the innermost frame that holds the key. -/
def erase (c : Chain ε) (k : κ) : Except Error ε × Chain ε :=
  c.changeBelow c.depth fun frame => frame.erase? k

/-- Takes out the entry that the current frame holds under the key. -/
def eraseLocal (c : Chain ε) (k : κ) : Except Error ε × Chain ε :=
  match c.stack.top.erase? k with
  | some (entry, frame) =>
    (.ok entry, { c with stack := (c.stack.modifyTop fun _ => ((), frame)).2 })
  | none => (.error .notInCurrentScope, c)

/-! ## Basic laws -/

@[simp]
theorem depth_insert (c : Chain ε) (entry : ε) : (c.insert entry).2.depth = c.depth :=
  Stack.depth_modifyTop c.stack fun frame => frame.insert entry

/-- A look-up goes through the frames of the walk. -/
theorem lookupBelow_eq (c : Chain ε) (x : Nat) (k : κ) :
    c.lookupBelow x k =
      match (c.stack.below x).findSome? fun frame => frame.find? k with
      | some entry => .ok entry
      | none => .error .keyNotFound := by
  rw [lookupBelow, Stack.findSomeBelow?_eq]

/-- What was just inserted is what is found, under the stored key if there was one. -/
theorem lookup_insert_self [EquivBEq κ] (c : Chain ε) (entry : ε) :
    (c.insert entry).2.lookup (Entry.key entry) =
      .ok (((c.stack.top.find? (Entry.key entry)).map fun stored =>
        Entry.replace stored entry).getD entry) := by
  have hframes : (c.insert entry).2.stack.fromTop =
      (c.stack.top.insert entry).2 :: c.stack.fromTop.tail :=
    Stack.fromTop_modifyTop c.stack fun frame => frame.insert entry
  have hbelow : (c.insert entry).2.stack.below (c.insert entry).2.depth =
      (c.insert entry).2.stack.fromTop := rfl
  rw [lookup, lookupBelow_eq, hbelow, hframes, List.findSome?_cons, Frame.find?_insert_self]

end Chain
end LexicalScope
