import LexicalScope.Chain.Keyed

/-!
# The visible walk

A walk over the entries of a chain, from the innermost frame outwards, that shows
each key once.  The walk reads the frames as a sequence of runs, remembers the keys
that it has shown, and skips every entry whose key it remembers.

Main results:

- Theorem {lit}`Visible.sizeHint_ofRuns`: before the first entry there is no upper bound,
  since there is always a frame that has not been read.
- Theorem {lit}`Visible.sizeHint_of_next_none`: when the walk has ended, nothing is left.
-/

namespace LexicalScope

variable {ε κ : Type} [Entry ε κ] [BEq κ]

/-! ## Runs of entries -/

/-- A sequence of entries that comes in runs: what is left of one run, and the runs after it. -/
structure Runs (ε : Type) where
  /-- What is left of the run that is being read. -/
  current : List ε
  /-- The runs that have not been opened. -/
  pending : List (List ε)

namespace Runs

/-- The entries that are left, in order. -/
def toList (r : Runs ε) : List ε :=
  r.current ++ r.pending.flatten

/-- How many entries are left is known once the last run is open. -/
def sizeHint (r : Runs ε) : SizeHint :=
  match r.pending with
  | [] => .exact r.current.length
  | _ :: _ => ⟨r.current.length, none⟩

end Runs

/-! ## One step of the walk -/

/-- A walk that is under way: the entries it has not read and the keys it has shown. -/
structure Visible (ε : Type) {κ : Type} [Entry ε κ] where
  /-- The entries that are left to read. -/
  inner : Runs ε
  /-- The keys that have been shown, the latest first. -/
  seen : List κ

namespace Visible

/-- The walk over runs of entries, before its first step. -/
def ofRuns (runs : List (List ε)) : Visible ε :=
  ⟨⟨[], runs⟩, []⟩

/-- Whether the key of an entry is one of those given. -/
def isSeen (seen : List κ) (entry : ε) : Bool :=
  seen.any fun k => k == Entry.key entry

/-- The first entry with a key that was not seen, and the entries after it. -/
def firstUnseen (seen : List κ) : List ε → List (List ε) → Option (ε × Runs ε)
  | current, [] =>
    match current.dropWhile (isSeen seen) with
    | entry :: rest => some (entry, ⟨rest, []⟩)
    | [] => none
  | current, run :: pending =>
    match current.dropWhile (isSeen seen) with
    | entry :: rest => some (entry, ⟨rest, run :: pending⟩)
    | [] => firstUnseen seen run pending

/-- Shows the next entry, if there is one; a walk that has ended has nothing left to read. -/
def next (v : Visible ε) : Option ε × Visible ε :=
  match firstUnseen v.seen v.inner.current v.inner.pending with
  | some (entry, inner) => (some entry, ⟨inner, Entry.key entry :: v.seen⟩)
  | none => (none, ⟨⟨[], []⟩, v.seen⟩)

/-- Any number of the entries left to read may be skipped, so only their upper bound stands. -/
def sizeHint (v : Visible ε) : SizeHint :=
  ⟨0, v.inner.sizeHint.upper⟩

/-! ## Several steps -/

/-- Shows entries until the given number is reached or the walk has ended. -/
def take : Nat → Visible ε → List ε × Visible ε
  | 0, v => ([], v)
  | n + 1, v =>
    match v.next with
    | (none, ended) => ([], ended)
    | (some entry, rest) =>
      let (entries, last) := take n rest
      (entry :: entries, last)

/-- Shows all entries; one step more than there are entries to read makes sure that it ends. -/
def drain (v : Visible ε) : List ε × Visible ε :=
  v.take (v.inner.toList.length + 1)

/-! ## Basic laws -/

omit [BEq κ] in
/-- Before the first entry of a stack of frames there is no upper bound. -/
theorem sizeHint_ofRuns (run : List ε) (runs : List (List ε)) :
    (ofRuns (run :: runs) : Visible ε).sizeHint = ⟨0, none⟩ :=
  rfl

/-- When the walk has ended, nothing is left. -/
theorem sizeHint_of_next_none {v : Visible ε} (h : v.next.1 = none) :
    v.next.2.sizeHint = ⟨0, some 0⟩ := by
  simp only [next] at h ⊢
  split at h
  · cases h
  · simp [sizeHint, Runs.sizeHint, SizeHint.exact]

end Visible

/-! ## The visible entries of a chain -/

/-- Puts neighbours with the same tag together. -/
def groupNeighbours {α : Type} : List (Nat × α) → List (Nat × List α)
  | [] => []
  | (tag, item) :: rest =>
    match groupNeighbours rest with
    | (next, items) :: groups =>
      if tag = next then (tag, item :: items) :: groups
      else (tag, [item]) :: (next, items) :: groups
    | [] => [(tag, [item])]

namespace Chain

/-- The visible walk over the frames of a chain. -/
def visible (c : Chain ε) : Visible ε :=
  .ofRuns (c.stack.fromTop.map Frame.entries)

/-- All visible entries, those of inner frames first. -/
def visibleEntries (c : Chain ε) : List ε :=
  c.visible.drain.1

/-- Entries along with the index of the frame that their key resolves to. -/
def located (c : Chain ε) (entries : List ε) : List (Nat × ε) :=
  entries.filterMap fun entry => (c.resolve (Entry.key entry)).map fun index => (index, entry)

/-- The visible entries, grouped by the frames that hold them, each group sorted by key. -/
def visibleGroups [Ord κ] (c : Chain ε) : List (Nat × List ε) :=
  (groupNeighbours (c.located c.visibleEntries)).map fun (index, entries) =>
    (index, Entry.sorted entries)

/-- The indexes of the frames that hold the first `n` visible entries. -/
def visibleFrames (c : Chain ε) (n : Nat) : List Nat :=
  (c.located (c.visible.take n).1).map Prod.fst

/-- The size hints of the visible walk before its first step and after its last. -/
def visibleHints (c : Chain ε) : SizeHint × SizeHint :=
  (c.visible.sizeHint, c.visible.drain.2.sizeHint)

end Chain
end LexicalScope
