import LexicalScope.Frame.Entry
import LexicalScope.Hasher

/-!
# Frames

A frame is a finite table of entries, at most one for each key up to equality of
keys.  Entries are kept in the order in which their keys came in, but look-up and
equality do not depend on that order, and the listing of a frame is sorted by key.

Main results:

- Theorem {lit}`Frame.find?_insert_self`: an inserted entry is found, under the stored
  key if there was one.
- Theorem {lit}`Frame.find?_insert_of_ne`: inserting leaves the other keys alone.
- Theorem {lit}`Frame.erase?_isSome`: erasing succeeds exactly for the keys that are held.
-/

namespace LexicalScope

variable {ε κ : Type} [Entry ε κ] [BEq κ]

/-! ## Lists of entries with distinct keys -/

namespace Entry

/-- No two of the keys are equal. -/
def Distinct (entries : List ε) : Prop :=
  (entries.map key).Pairwise fun a b => (a == b) = false

/-- Puts an entry over the one with an equal key, or at the end if there is none. -/
def upsert (new : ε) : List ε → List ε
  | [] => [new]
  | stored :: rest =>
    if key stored == key new then replace stored new :: rest else stored :: upsert new rest

/-- The entries in the order of their keys. -/
def sorted [Ord κ] (entries : List ε) : List ε :=
  entries.mergeSort fun a b => (compare (key a) (key b)).isLE

/-- Putting in an entry adds its key at the end, unless an equal key is there already. -/
theorem map_key_upsert (new : ε) (entries : List ε) :
    (upsert new entries).map key =
      if entries.any (fun stored => key stored == key new) then entries.map key
      else entries.map key ++ [key new] := by
  induction entries with
  | nil => rfl
  | cons stored rest ih =>
    cases h : key stored == key new with
    | true => simp [upsert, h, key_replace]
    | false =>
      have held : (stored :: rest).any (fun e => key e == key new) =
          rest.any fun e => key e == key new := by simp [h]
      rw [held]
      by_cases hr : rest.any (fun e => key e == key new) = true <;>
        simp_all [upsert]

/-- Entries with distinct keys stay so when one is put in or over an equal one. -/
theorem distinct_upsert (new : ε) {entries : List ε} (h : Distinct entries) :
    Distinct (upsert new entries) := by
  unfold Distinct at *
  rw [map_key_upsert]
  split
  · exact h
  · rename_i hne
    simp only [List.any_eq_true, not_exists, not_and, Bool.not_eq_true] at hne
    rw [List.pairwise_append]
    refine ⟨h, by simp, ?_⟩
    simpa using hne

/-- Entries with distinct keys stay so when one is taken out. -/
theorem distinct_eraseP (p : ε → Bool) {entries : List ε} (h : Distinct entries) :
    Distinct (entries.eraseP p) :=
  List.Pairwise.sublist (List.eraseP_sublist.map key) h

end Entry

/-! ## The type of frames -/

/-- A table of entries with distinct keys, made with some hasher. -/
structure Frame (ε : Type) {κ : Type} [Entry ε κ] [BEq κ] where
  /-- The hasher the frame was made with. -/
  hasher : Hasher
  /-- The entries, in the order in which their keys came in. -/
  entries : List ε
  /-- There is at most one entry for each key. -/
  distinct : Entry.Distinct entries

namespace Frame

/-- The frame without entries. -/
def empty (hasher : Hasher) : Frame ε :=
  ⟨hasher, [], List.Pairwise.nil⟩

/-- How many entries there are. -/
def size (f : Frame ε) : Nat :=
  f.entries.length

/-- The entry held under a key. -/
def find? (f : Frame ε) (k : κ) : Option ε :=
  f.entries.find? fun stored => Entry.key stored == k

/-- Whether there is an entry under a key. -/
def contains (f : Frame ε) (k : κ) : Bool :=
  f.entries.any fun stored => Entry.key stored == k

/-- Puts an entry in, and answers the one that was held under an equal key before. -/
def insert (f : Frame ε) (new : ε) : Option ε × Frame ε :=
  (f.find? (Entry.key new),
    { f with
      entries := Entry.upsert new f.entries
      distinct := Entry.distinct_upsert new f.distinct })

/-- Takes the entry under a key out, and answers it. -/
def erase? (f : Frame ε) (k : κ) : Option (ε × Frame ε) :=
  (f.find? k).map fun held =>
    (held,
      { f with
        entries := f.entries.eraseP fun stored => Entry.key stored == k
        distinct := Entry.distinct_eraseP _ f.distinct })

/-- The frame that arises by inserting the entries in order. -/
def ofList (hasher : Hasher) (entries : List ε) : Frame ε :=
  entries.foldl (fun f new => (f.insert new).2) (empty hasher)

/-- The entries sorted by key. -/
def listing [Ord κ] (f : Frame ε) : List ε :=
  Entry.sorted f.entries

/--
Two frames are equal if they have equally many entries and each entry of the first is
matched by one of the second that holds the same under an equal key.
-/
instance : BEq (Frame ε) where
  beq a b := a.size == b.size && a.entries.all fun e => (b.find? (Entry.key e)).any (Entry.agree e)

/-! ## Basic laws -/

/-- A frame contains a key if and only if it finds an entry for it. -/
theorem contains_eq_isSome_find? (f : Frame ε) (k : κ) : f.contains k = (f.find? k).isSome := by
  simp [contains, find?, List.isSome_find?]

/-- What is found under a key has an equal key. -/
theorem key_beq_of_find? {f : Frame ε} {k : κ} {stored : ε} (h : f.find? k = some stored) :
    (Entry.key stored == k) = true :=
  List.find?_some (p := fun e => Entry.key e == k) h

/-- Erasing succeeds exactly for the keys that are held. -/
theorem erase?_isSome (f : Frame ε) (k : κ) : (f.erase? k).isSome = f.contains k := by
  simp [erase?, contains_eq_isSome_find?]

/-- An inserted entry is found, under the stored key if there was one. -/
theorem find?_insert_self [EquivBEq κ] (f : Frame ε) (new : ε) :
    (f.insert new).2.find? (Entry.key new) =
      some (((f.find? (Entry.key new)).map fun stored => Entry.replace stored new).getD new) := by
  simp only [insert, find?]
  induction f.entries with
  | nil => simp [Entry.upsert]
  | cons stored rest ih =>
    cases h : Entry.key stored == Entry.key new with
    | true => simp [Entry.upsert, h, Entry.key_replace]
    | false => simpa [Entry.upsert, h] using ih

/-- Inserting leaves the other keys alone. -/
theorem find?_insert_of_ne [EquivBEq κ] (f : Frame ε) (new : ε) {k : κ}
    (h : (Entry.key new == k) = false) : (f.insert new).2.find? k = f.find? k := by
  simp only [insert, find?]
  induction f.entries with
  | nil => simp [Entry.upsert, h]
  | cons stored rest ih =>
    cases hs : Entry.key stored == Entry.key new with
    | true =>
      have hk : (Entry.key stored == k) = false := by rw [BEq.congr_left hs, h]
      simp [Entry.upsert, hs, Entry.key_replace, hk]
    | false =>
      simp only [Entry.upsert, hs, Bool.false_eq_true, if_false, List.find?_cons, ih]

end Frame
end LexicalScope
