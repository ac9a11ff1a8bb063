import LexicalScope.Proofs.Checked.Stack
import LexicalScope.Session.BindingRequest
import LexicalScope.Session.NameRequest

/-!
# Chains on a machine

The operations on a chain that look for a frame, or that are given an index, do so by way of its
stack, and this is all that they compute with words.  So on a machine they do what they do with
natural numbers as long as the depth is a word, and a request about keys is a fault only if it is
one with natural numbers too.

Main results:

- Theorem {lit}`Checked.located_eq`: the frames that entries belong to are found without a trap.
- Theorems {lit}`Checked.fulfilBinding_eq` and {lit}`Checked.fulfilName_eq`: no request about keys
  traps.
-/

namespace LexicalScope

variable {ε κ ν : Type} [BEq κ]

namespace Checked

/-! ## Operations -/

section Operations

variable [Entry ε κ]

/-- The entry in the innermost of the first `n` frames that holds the key. -/
def lookupAmong (c : Chain ε) (k : κ) (n : Nat) : Except Error ε :=
  match c.stack.findSomeAmong? (fun frame => frame.find? k) n with
  | some entry => .ok entry
  | none => .error .keyNotFound

/-- The entry in the innermost frame below an index that holds the key. -/
def lookupBelow (c : Chain ε) (index : UInt64) (k : κ) : Except Trap (Except Error ε) := do
  let (last, _) ← region c.stack index
  return lookupAmong c k last.toNat

/-- The entry in the innermost frame that holds the key. -/
def lookup (c : Chain ε) (k : κ) : Except Trap (Except Error ε) := do
  lookupBelow c (← depth c.stack) k

/-- Whether some frame holds the key. -/
def has (c : Chain ε) (k : κ) : Except Trap Bool := do
  let (last, _) ← region c.stack (← depth c.stack)
  return c.stack.anyAmong (fun frame => frame.contains k) last.toNat

/-- Whether there is a frame with the index and it holds the key. -/
def hasAt (c : Chain ε) (index : UInt64) (k : κ) : Except Trap Bool := do
  return (← frame? c.stack index).any fun frame => frame.contains k

/-- The index of the innermost frame that holds the key. -/
def resolve (c : Chain ε) (k : κ) : Except Trap (Option UInt64) :=
  position c.stack fun frame => frame.contains k

/-- Inserts an entry into the frame with an index, and answers the one that it replaces there. -/
def insertAt (c : Chain ε) (index : UInt64) (entry : ε) :
    Except Trap (Except Error (Option ε) × Chain ε) := do
  let depth ← depth c.stack
  match ← modifyFrame c.stack index fun frame => frame.insert entry with
  | (some replaced, stack) => return (.ok replaced, { c with stack := stack })
  | (none, stack) =>
    return (.error (.outOfRange index.toNat depth.toNat), { c with stack := stack })

/-- Changes the innermost of the first `n` frames on which `f` succeeds. -/
def changeAmong (c : Chain ε) (f : Frame ε → Option (ε × Frame ε)) (n : Nat) :
    Except Error ε × Chain ε :=
  match c.stack.changeFirstAmong f n with
  | (some entry, stack) => (.ok entry, { c with stack := stack })
  | (none, stack) => (.error .keyNotFound, { c with stack := stack })

/-- Changes the innermost frame below an index on which `f` succeeds. -/
def changeBelow (c : Chain ε) (index : UInt64) (f : Frame ε → Option (ε × Frame ε)) :
    Except Trap (Except Error ε × Chain ε) := do
  let (last, _) ← region c.stack index
  return changeAmong c f last.toNat

/-- Changes the innermost frame on which `f` succeeds. -/
def change (c : Chain ε) (f : Frame ε → Option (ε × Frame ε)) :
    Except Trap (Except Error ε × Chain ε) := do
  changeBelow c (← depth c.stack) f

/-- The visible walk over the frames of a chain. -/
def visible (c : Chain ε) : Except Trap (Visible ε) := do
  return .ofRuns ((← fromTop c.stack).map Frame.entries)

/-- Entries along with the index of the frame that their key resolves to. -/
def located (c : Chain ε) : List ε → Except Trap (List (Nat × ε))
  | [] => return []
  | entry :: rest => do
    let index ← resolve c (Entry.key entry)
    let others ← located c rest
    return (index.map fun i => (i.toNat, entry)).toList ++ others

/-- The visible entries, grouped by the frames that hold them, each group sorted by key. -/
def visibleGroups [Ord κ] (c : Chain ε) : Except Trap (List (Nat × List ε)) := do
  let entries ← located c (← visible c).drain.1
  return (groupNeighbours entries).map fun (index, entries) => (index, Entry.sorted entries)

/-- The indexes of the frames that hold the first `n` visible entries. -/
def visibleFrames (c : Chain ε) (n : Nat) : Except Trap (List Nat) := do
  return (← located c ((← visible c).take n).1).map Prod.fst

/-- The size hints of the visible walk before its first step and after its last. -/
def visibleHints (c : Chain ε) : Except Trap (SizeHint × SizeHint) := do
  let v ← visible c
  return (v.sizeHint, v.drain.2.sizeHint)

end Operations

/-! ## Where operations trap -/

section Basic

variable [Entry ε κ] {c : Chain ε}

/-- Looking up below an index does not trap. -/
theorem lookupBelow_eq (h : c.stack.Fits) (index : UInt64) (k : κ) :
    lookupBelow c index k = .ok (c.lookupBelow index.toNat k) :=
  region_bind h index (lookupAmong c k)

/-- Looking up a key does not trap. -/
theorem lookup_eq (h : c.stack.Fits) (k : κ) : lookup c k = .ok (c.lookup k) := by
  have hbelow := lookupBelow_eq h (.ofNat c.stack.depth) k
  rw [h.toNat_depth] at hbelow
  rw [lookup, depth_eq h]
  exact hbelow

/-- Asking whether a chain has a key does not trap. -/
theorem has_eq (h : c.stack.Fits) (k : κ) : has c k = .ok (c.has k) := by
  have hbind := region_bind h (.ofNat c.stack.depth) fun n =>
    c.stack.anyAmong (fun frame => frame.contains k) n
  rw [h.toNat_depth] at hbind
  rw [has, depth_eq h]
  exact hbind

/-- Asking a frame by its index does not trap, whatever the depth. -/
theorem hasAt_eq (c : Chain ε) (index : UInt64) (k : κ) :
    hasAt c index k = .ok (c.hasAt index.toNat k) := by
  rw [hasAt, frame?_eq]
  rfl

/-- Resolving a key does not trap, and its index fits into a word. -/
theorem resolve_eq (h : c.stack.Fits) (k : κ) : resolve c k = .ok ((c.resolve k).map .ofNat) :=
  position_eq h _

/-- The index that a key resolves to is one of a frame, so that it is a word. -/
theorem toNat_resolve (h : c.stack.Fits) (k : κ) :
    ((c.resolve k).map UInt64.ofNat).map UInt64.toNat = c.resolve k :=
  toNat_ofNat_position h _ _

/-- Inserting by index does not trap, not even when it is refused. -/
theorem insertAt_eq (h : c.stack.Fits) (index : UInt64) (entry : ε) :
    insertAt c index entry = .ok (c.insertAt index.toNat entry) := by
  rw [insertAt, depth_eq h, modifyFrame_eq, Chain.insertAt]
  change (match c.stack.modifyFrame index.toNat fun frame => frame.insert entry with
    | (some _, _) => _ | (none, _) => _) = _
  rw [Stack.modifyFrame]
  cases c.stack.frame? index.toNat with
  | some frame => rfl
  | none =>
      change Except.ok (Except.error (Error.outOfRange _ (UInt64.ofNat c.stack.depth).toNat), c) = _
      rw [h.toNat_depth]

/-- A change below an index does not trap. -/
theorem changeBelow_eq (h : c.stack.Fits) (index : UInt64)
    (f : Frame ε → Option (ε × Frame ε)) :
    changeBelow c index f = .ok (c.changeBelow index.toNat f) := by
  rw [changeBelow, region_bind h index (changeAmong c f), changeAmong, Chain.changeBelow,
    Stack.changeFirstBelow]
  rcases c.stack.changeFirstAmong f (min index.toNat c.stack.depth) with ⟨_ | entry, stack⟩ <;> rfl

/-- A change of the innermost frame that allows it does not trap. -/
theorem change_eq (h : c.stack.Fits) (f : Frame ε → Option (ε × Frame ε)) :
    change c f = .ok (c.changeBelow c.depth f) := by
  have hbelow := changeBelow_eq h (.ofNat c.stack.depth) f
  rw [h.toNat_depth] at hbelow
  rw [change, depth_eq h]
  exact hbelow

/-- Starting the visible walk does not trap. -/
theorem visible_eq (h : c.stack.Fits) : visible c = .ok c.visible := by
  rw [visible, fromTop_eq h]
  rfl

/-- The frames that entries belong to are found without a trap. -/
theorem located_eq (h : c.stack.Fits) (entries : List ε) :
    located c entries = .ok (c.located entries) := by
  induction entries with
  | nil => rfl
  | cons entry rest ih =>
      have hfirst : ((c.resolve (Entry.key entry)).map UInt64.ofNat).map
          (fun i => (i.toNat, entry)) = (c.resolve (Entry.key entry)).map fun i => (i, entry) := by
        rw [← congrArg (Option.map fun i => (i, entry)) (toNat_resolve h (Entry.key entry)),
          Option.map_map, Option.map_map, Option.map_map]
        rfl
      rw [located, resolve_eq h, ih]
      refine (congrArg (fun first => Except.ok (first.toList ++ c.located rest)) hfirst).trans ?_
      rw [Chain.located, Chain.located, List.filterMap_cons]
      cases c.resolve (Entry.key entry) <;> rfl

/-- Listing the visible entries does not trap. -/
theorem visibleGroups_eq [Ord κ] (h : c.stack.Fits) :
    visibleGroups c = .ok c.visibleGroups := by
  rw [visibleGroups, visible_eq h]
  change (do return (groupNeighbours (← located c c.visible.drain.1)).map _ : Except Trap _) = _
  rw [located_eq h]
  rfl

/-- Listing the frames of the first visible entries does not trap. -/
theorem visibleFrames_eq (h : c.stack.Fits) (n : Nat) :
    visibleFrames c n = .ok (c.visibleFrames n) := by
  rw [visibleFrames, visible_eq h]
  change (do return (← located c (c.visible.take n).1).map Prod.fst : Except Trap _) = _
  rw [located_eq h]
  rfl

/-- Asking the visible walk for its hints does not trap. -/
theorem visibleHints_eq (h : c.stack.Fits) : visibleHints c = .ok c.visibleHints := by
  rw [visibleHints, visible_eq h]
  rfl

end Basic

/-! ## Requests to a chain of bindings -/

section Bindings

variable [BEq ν] [Ord κ]

/-- The index that a request is given is a word. -/
def BindingIndexed : BindingRequest κ ν → Prop
  | .declareAt index _ _ => index < UInt64.size
  | .getBelow index _ => index < UInt64.size
  | .overwriteBelow index _ _ => index < UInt64.size
  | .hasAt index _ => index < UInt64.size
  | _ => True

/-- How a chain of bindings fulfils a request on a machine. -/
def fulfilBinding (request : BindingRequest κ ν) (c : Bindings κ ν) :
    Except Trap (Except Fault (BindingAnswer κ ν) × Bindings κ ν) :=
  match request with
  | .declare key value => return (BindingRequest.declare key value).fulfil c
  | .declareAt index key value => do
    let (outcome, c) ← insertAt c (.ofNat index) ⟨key, value⟩
    return (.ok (.replacedAt (outcome.map fun replaced => replaced.map Binding.value)), c)
  | .get key => do return (.ok (.outcome ((← lookup c key).map Binding.value)), c)
  | .getBelow index key => do
    return (.ok (.outcome ((← lookupBelow c (.ofNat index) key).map Binding.value)), c)
  | .overwrite key value => do
    let (outcome, c) ← change c fun frame => frame.modify? key fun _ => value
    return (.ok (.outcome (outcome.map Binding.value)), c)
  | .overwriteBelow index key value => do
    let (outcome, c) ← changeBelow c (.ofNat index) fun frame => frame.modify? key fun _ => value
    return (.ok (.outcome (outcome.map Binding.value)), c)
  | .assign key value => do
    let (outcome, c) ← change c fun frame => frame.modify? key fun _ => value
    return (.ok (.outcome (outcome.map Binding.value)), c)
  | .has key => do return (.ok (.flag (← has c key)), c)
  | .hasLocal key => return (BindingRequest.hasLocal key).fulfil c
  | .hasAt index key => do return (.ok (.flag (← hasAt c (.ofNat index) key)), c)
  | .resolve key => do return (.ok (.index ((← resolve c key).map UInt64.toNat)), c)
  | .delete key => do
    let (outcome, c) ← change c fun frame => frame.erase? key
    return (.ok (.outcome (outcome.map Binding.value)), c)
  | .deleteLocal key => return (BindingRequest.deleteLocal key).fulfil c
  | .demand key => do
    match ← lookup c key with
    | .ok b => return (.ok (.value b.value), c)
    | .error _ => return (.error .unbound, c)
  | .keys => do
    let groups ← visibleGroups c
    return (.ok (.keys (groups.map fun (index, entries) => (index, entries.map Binding.key))), c)

/-- No request to a chain of bindings traps, and all are fulfilled as with natural numbers. -/
theorem fulfilBinding_eq {request : BindingRequest κ ν} {c : Bindings κ ν} (h : c.stack.Fits)
    (hindex : BindingIndexed request) : fulfilBinding request c = .ok (request.fulfil c) := by
  cases request with
  | declare key value | hasLocal key | deleteLocal key => rfl
  | declareAt index key value =>
      rw [fulfilBinding, insertAt_eq h, UInt64.toNat_ofNat_of_lt' hindex]
      rfl
  | get key =>
      rw [fulfilBinding, lookup_eq h]
      rfl
  | getBelow index key =>
      rw [fulfilBinding, lookupBelow_eq h, UInt64.toNat_ofNat_of_lt' hindex]
      rfl
  | overwrite key value | assign key value | delete key =>
      rw [fulfilBinding, change_eq h]
      rfl
  | overwriteBelow index key value =>
      rw [fulfilBinding, changeBelow_eq h, UInt64.toNat_ofNat_of_lt' hindex]
      rfl
  | has key =>
      rw [fulfilBinding, has_eq h]
      rfl
  | hasAt index key =>
      rw [fulfilBinding, hasAt_eq, UInt64.toNat_ofNat_of_lt' hindex]
      rfl
  | resolve key =>
      rw [fulfilBinding, resolve_eq h]
      change Except.ok (Except.ok (BindingAnswer.index (Option.map _ (Option.map _ _))), c) = _
      rw [toNat_resolve h]
      rfl
  | demand key =>
      rw [fulfilBinding, lookup_eq h, BindingRequest.fulfil, Bindings.get]
      rcases c.lookup key with e | b <;> rfl
  | keys =>
      rw [fulfilBinding, visibleGroups_eq h]
      rfl

end Bindings

/-! ## Requests to a chain of names -/

/-- The index that a request is given is a word. -/
def NameIndexed : NameRequest κ → Prop
  | .addAt index _ => index < UInt64.size
  | .hasAt index _ => index < UInt64.size
  | _ => True

/-- How a chain of names fulfils a request on a machine. -/
def fulfilName (request : NameRequest κ) (c : Names κ) :
    Except Trap (Except Fault (NameAnswer κ) × Names κ) :=
  match request with
  | .add key => return (NameRequest.add key).fulfil c
  | .addAt index key => do
    let (outcome, c) ← insertAt c (.ofNat index) ⟨key⟩
    return (.ok (.added (outcome.map Option.isNone)), c)
  | .get key => do return (.ok (.outcome ((← lookup c key).map Member.key)), c)
  | .has key => do return (.ok (.flag (← has c key)), c)
  | .hasLocal key => return (NameRequest.hasLocal key).fulfil c
  | .hasAt index key => do return (.ok (.flag (← hasAt c (.ofNat index) key)), c)
  | .resolve key => do return (.ok (.index ((← resolve c key).map UInt64.toNat)), c)
  | .delete key => do
    let (outcome, c) ← change c fun frame => frame.erase? key
    return (.ok (.outcome (outcome.map Member.key)), c)
  | .deleteLocal key => return (NameRequest.deleteLocal key).fulfil c

/-- No request to a chain of names traps, and all are fulfilled as with natural numbers. -/
theorem fulfilName_eq {request : NameRequest κ} {c : Names κ} (h : c.stack.Fits)
    (hindex : NameIndexed request) : fulfilName request c = .ok (request.fulfil c) := by
  cases request with
  | add key | hasLocal key | deleteLocal key => rfl
  | addAt index key =>
      rw [fulfilName, insertAt_eq h, UInt64.toNat_ofNat_of_lt' hindex]
      rfl
  | get key =>
      rw [fulfilName, lookup_eq h]
      rfl
  | has key =>
      rw [fulfilName, has_eq h]
      rfl
  | hasAt index key =>
      rw [fulfilName, hasAt_eq, UInt64.toNat_ofNat_of_lt' hindex]
      rfl
  | resolve key =>
      rw [fulfilName, resolve_eq h]
      change Except.ok (Except.ok (NameAnswer.index (Option.map _ (Option.map _ _))), c) = _
      rw [toNat_resolve h]
      rfl
  | delete key =>
      rw [fulfilName, change_eq h]
      rfl

end Checked
end LexicalScope
