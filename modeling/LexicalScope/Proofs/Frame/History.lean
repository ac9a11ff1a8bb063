import Mathlib.Data.List.DropRight
import LexicalScope.Chain.Bindings
import LexicalScope.Proofs.Frame.Agree
import LexicalScope.Proofs.Frame.SameKeys

/-!
# Histories of frames

The history of a frame is the list of what was done to it: an entry was inserted under some
spelling of its key, its value was overwritten, or it was removed.  It is a plain list, which
knows nothing of frames.  Its edits about one key tell what the frame holds under the key.  The
entry is there if the last insertion or removal was an insertion; it is spelled as the first
insertion after the last removal spelled it; and it has the value of the latest insertion or
overwriting.  Edits of equal keys belong together, however the keys are spelled.

Main results:

- Theorem {lit}`History.isSome_spelling?`: a list of edits tells a spelling if and only if it
  tells that the entry is there.
- Theorem {lit}`Tells.extend`: what an edit does to what is told.
- Theorems {lit}`Frame.Follows.insert`, {lit}`Frame.Follows.modify?` and
  {lit}`Frame.Follows.erase?`: a frame goes on following its history if what is done to it is
  noted there.
-/

namespace LexicalScope

variable {ε κ ν : Type}

/-! ## Edits -/

/-- Something that was done to a frame about a key. -/
inductive Edit (κ ν : Type) where
  /-- An entry was inserted, with the key spelled like this. -/
  | insert (key : κ) (value : ν)
  /-- The value of the entry was overwritten. -/
  | overwrite (key : κ) (value : ν)
  /-- The entry was removed. -/
  | remove (key : κ)

namespace Edit

/-- The key that the edit is about. -/
def key : Edit κ ν → κ
  | .insert key _ | .overwrite key _ | .remove key => key

/-- Whether the entry is there after the edit, if that is known from the edit alone. -/
def settles : Edit κ ν → Option Bool
  | .insert _ _ => some true
  | .overwrite _ _ => none
  | .remove _ => some false

/-- The spelling that the edit inserts. -/
def spelling? : Edit κ ν → Option κ
  | .insert key _ => some key
  | .overwrite _ _ | .remove _ => none

/-- The value that the edit writes. -/
def value? : Edit κ ν → Option ν
  | .insert _ value | .overwrite _ value => some value
  | .remove _ => none

/-- Whether the edit removes the entry. -/
def isRemoval : Edit κ ν → Bool
  | .remove _ => true
  | .insert _ _ | .overwrite _ _ => false

end Edit

/-! ## Lists of edits -/

/-- What was done to a frame since it was made, the latest edit last. -/
abbrev History (κ ν : Type) :=
  List (Edit κ ν)

namespace History

/-- The last insertion or removal was an insertion. -/
def present (edits : History κ ν) : Bool :=
  (edits.filterMap Edit.settles).getLast?.getD false

/-- The edits after the last removal. -/
def sinceRemoval (edits : History κ ν) : History κ ν :=
  edits.rtakeWhile fun edit => !edit.isRemoval

/-- The spelling of the first insertion after the last removal. -/
def spelling? (edits : History κ ν) : Option κ :=
  edits.sinceRemoval.findSome? Edit.spelling?

/-- The value of the latest insertion or overwriting. -/
def latest? (edits : History κ ν) : Option ν :=
  (edits.filterMap Edit.value?).getLast?

/-- The history of a frame that is made of some entries, each of which is inserted in turn. -/
def ofEntries (view : ε → Binding κ ν) (entries : List ε) : History κ ν :=
  entries.map fun e => .insert (view e).key (view e).value

section Keys

variable [BEq κ]

/-- The edits about a key, and about keys equal to it. -/
def about (history : History κ ν) (k : κ) : History κ ν :=
  history.filter fun edit => edit.key == k

/-- Whether the history tells that there is an entry under the key. -/
def holds (history : History κ ν) (k : κ) : Bool :=
  (history.about k).present

/-- The history after an edit; an entry that is not there can only be inserted. -/
def note (history : History κ ν) : Edit κ ν → History κ ν
  | .insert key value => history ++ [.insert key value]
  | .overwrite key value =>
    if history.holds key then history ++ [.overwrite key value] else history
  | .remove key => if history.holds key then history ++ [.remove key] else history

end Keys

/-! ### One edit more -/

/-- An insertion or a removal settles whether the entry is there, and an overwriting does not. -/
theorem present_concat (edits : History κ ν) (edit : Edit κ ν) :
    present (edits ++ [edit]) = edit.settles.getD edits.present := by
  cases edit <;> simp [present, Edit.settles]

/-- After a removal the edits since the last removal begin anew. -/
theorem sinceRemoval_concat (edits : History κ ν) (edit : Edit κ ν) :
    sinceRemoval (edits ++ [edit]) =
      if edit.isRemoval then [] else edits.sinceRemoval ++ [edit] := by
  cases edit <;> simp [sinceRemoval, Edit.isRemoval]

/-- An insertion tells its spelling if none was told before it, and a removal forgets it. -/
theorem spelling?_concat (edits : History κ ν) (edit : Edit κ ν) :
    spelling? (edits ++ [edit]) =
      if edit.isRemoval then none else edits.spelling?.or edit.spelling? := by
  rw [spelling?, sinceRemoval_concat]
  cases hremoval : edit.isRemoval with
  | true => rfl
  | false => simp [spelling?, List.findSome?_append]

/-- The value that an edit writes is the latest one. -/
theorem latest?_concat (edits : History κ ν) (edit : Edit κ ν) :
    latest? (edits ++ [edit]) = edit.value?.or edits.latest? := by
  cases edit <;> simp [latest?, Edit.value?]

/-- A list of edits tells a spelling if and only if it tells that the entry is there. -/
theorem isSome_spelling? (edits : History κ ν) : edits.spelling?.isSome = edits.present := by
  induction edits using List.reverseRecOn with
  | nil => rfl
  | append_singleton edits edit ih =>
      rw [spelling?_concat, present_concat]
      cases edit with
      | insert key value => simp [Edit.isRemoval, Edit.spelling?, Edit.settles]
      | overwrite key value => simpa [Edit.isRemoval, Edit.spelling?, Edit.settles] using ih
      | remove key => rfl

/-- An edit is about its own key and all keys equal to it. -/
theorem about_concat [BEq κ] (history : History κ ν) (edit : Edit κ ν) (k : κ) :
    about (history ++ [edit]) k =
      if edit.key == k then history.about k ++ [edit] else history.about k := by
  cases hk : edit.key == k <;> simp [about, hk]

/-- Every edit of an entry that is there is noted. -/
theorem note_of_holds [BEq κ] {history : History κ ν} {edit : Edit κ ν}
    (h : history.holds edit.key = true) : history.note edit = history ++ [edit] := by
  cases edit with
  | insert key value => rfl
  | overwrite key value => exact if_pos h
  | remove key => exact if_pos h

/-- The removal of an entry that is not there is not noted. -/
theorem note_remove_of_not_holds [BEq κ] {history : History κ ν} {k : κ}
    (h : history.holds k = false) : history.note (.remove k) = history := by
  rw [note, h]
  rfl

end History

/-! ## What edits tell about an entry -/

/-- The edits tell whether there is an entry, and how it is spelled and what value it has. -/
structure Tells (edits : History κ ν) (held : Option (Binding κ ν)) : Prop where
  present : held.isSome = edits.present
  spelling : ∀ b ∈ held, edits.spelling? = some b.key
  value : ∀ b ∈ held, edits.latest? = some b.value

/-- The entry after an edit. -/
def Edit.apply (edit : Edit κ ν) (held : Option (Binding κ ν)) : Option (Binding κ ν) :=
  match edit with
  | .insert key value => some ⟨(held.map Binding.key).getD key, value⟩
  | .overwrite _ value => held.map fun b => ⟨b.key, value⟩
  | .remove _ => none

namespace Tells

/-- Without edits there is no entry. -/
theorem nil : Tells ([] : History κ ν) none :=
  ⟨rfl, nofun, nofun⟩

/-- An insertion keeps the spelling of an entry that is there, and a removal forgets it. -/
theorem extend {edits : History κ ν} {held : Option (Binding κ ν)} (h : Tells edits held)
    (edit : Edit κ ν) : Tells (edits ++ [edit]) (edit.apply held) := by
  have hspelling := edits.isSome_spelling?
  rw [← h.present] at hspelling
  cases edit with
  | insert key value =>
      refine ⟨by simp [Edit.apply, History.present_concat, Edit.settles], ?_, ?_⟩
      · rintro b ⟨⟩
        rw [History.spelling?_concat, Edit.isRemoval, if_neg Bool.false_ne_true, Edit.spelling?]
        cases held with
        | none =>
            have hnone : edits.spelling? = none := by simpa using hspelling
            rw [hnone]
            rfl
        | some old =>
            rw [h.spelling old rfl]
            rfl
      · rintro b ⟨⟩
        rw [History.latest?_concat]
        rfl
  | overwrite key value =>
      refine ⟨by simp [Edit.apply, History.present_concat, Edit.settles, h.present], ?_, ?_⟩
      · intro b hb
        rcases Option.map_eq_some_iff.mp hb with ⟨old, hold, rfl⟩
        rw [History.spelling?_concat, Edit.isRemoval, if_neg Bool.false_ne_true,
          h.spelling old hold]
        rfl
      · intro b hb
        rcases Option.map_eq_some_iff.mp hb with ⟨old, hold, rfl⟩
        rw [History.latest?_concat]
        rfl
  | remove key => exact ⟨by simp [Edit.apply, History.present_concat, Edit.settles], nofun, nofun⟩

end Tells

/-! ## Frames that follow their histories -/

/--
A frame, with its entries seen as bindings, is as its history tells: for every key it holds at
most one entry, namely the one that the edits about the key tell of.
-/
structure Frame.Follows [Entry ε κ] [BEq κ] (view : ε → Binding κ ν) (f : Frame ε)
    (history : History κ ν) : Prop where
  single : ∀ k, (f.entries.filter fun e => Entry.key e == k).length ≤ 1
  tells : ∀ k, Tells (history.about k) ((f.find? k).map view)

/-- Entries can be seen as bindings with the same keys, whose values are replaced as a whole. -/
structure Entry.SeenAs [Entry ε κ] (view : ε → Binding κ ν) : Prop where
  key : ∀ e, (view e).key = Entry.key e
  replace : ∀ stored new, view (Entry.replace stored new) = ⟨(view stored).key, (view new).value⟩

/-- A binding is seen as itself. -/
theorem Binding.seenAs [BEq ν] : Entry.SeenAs (id : Binding κ ν → Binding κ ν) :=
  ⟨fun _ => rfl, fun _ _ => rfl⟩

/-- A member is seen as a binding of its key to nothing in particular. -/
theorem Member.seenAs : Entry.SeenAs (Member.toBinding : Member κ → Binding κ Unit) :=
  ⟨fun _ => rfl, fun _ _ => rfl⟩

namespace Frame

variable [Entry ε κ] [BEq κ] [EquivBEq κ]

/-- No frame holds two entries whose keys are equal. -/
theorem length_filter_key_le_one (f : Frame ε) (k : κ) :
    (f.entries.filter fun e => Entry.key e == k).length ≤ 1 := by
  have hdistinct := f.distinct
  generalize f.entries = entries at hdistinct
  induction entries with
  | nil => exact Nat.zero_le 1
  | cons first rest ih =>
      rcases List.pairwise_cons.mp hdistinct with ⟨hfirst, hrest⟩
      cases hk : Entry.key first == k with
      | false => simpa [hk] using ih hrest
      | true =>
          have hnone : (rest.filter fun e => Entry.key e == k) = [] := by
            rw [List.filter_eq_nil_iff]
            intro e he hek
            have hne := hfirst (Entry.key e) (List.mem_map_of_mem he)
            rw [BEq.trans hk (BEq.symm hek)] at hne
            cases hne
          simp [hk, hnone]

/-- What is held under a key after an entry was put in. -/
theorem find?_insert (f : Frame ε) (e : ε) (k : κ) :
    (f.insert e).2.find? k =
      if Entry.key e == k then
        some (((f.find? k).map fun stored => Entry.replace stored e).getD e)
      else f.find? k := by
  cases hk : Entry.key e == k with
  | true => rw [if_pos rfl, ← find?_congr _ hk, ← find?_congr _ hk, find?_insert_self]
  | false => rw [if_neg Bool.false_ne_true, f.find?_insert_of_ne e hk]

namespace Follows

variable {view : ε → Binding κ ν} {f f' : Frame ε} {history : History κ ν}

omit [EquivBEq κ] in
/-- A frame holds a key if and only if its history tells so. -/
theorem contains (h : Follows view f history) (k : κ) : f.contains k = history.holds k := by
  rw [contains_eq_isSome_find?, History.holds, ← (h.tells k).present, Option.isSome_map]

/-- An empty frame follows the history without edits. -/
theorem empty (hasher : Hasher) : Follows view (.empty hasher : Frame ε) [] :=
  ⟨fun k => length_filter_key_le_one _ k, fun _ => .nil⟩

/-- A frame that was changed under one key follows its history if the change is noted there. -/
theorem extend (h : Follows view f history) (edit : Edit κ ν)
    (hafter : ∀ k, (f'.find? k).map view =
      if edit.key == k then edit.apply ((f.find? k).map view) else (f.find? k).map view) :
    Follows view f' (history ++ [edit]) := by
  refine ⟨fun k => length_filter_key_le_one _ k, fun k => ?_⟩
  rw [History.about_concat, hafter]
  cases edit.key == k with
  | true => exact (h.tells k).extend edit
  | false => exact h.tells k

/-- An entry that is put in is noted as an insertion. -/
theorem insert (hview : Entry.SeenAs view) (h : Follows view f history) (e : ε) :
    Follows view (f.insert e).2 (history ++ [.insert (view e).key (view e).value]) := by
  refine h.extend _ fun k => ?_
  rw [find?_insert, Edit.key, hview.key]
  split
  · cases f.find? k with
    | none =>
        change some (view e) = some ⟨Entry.key e, (view e).value⟩
        rw [← hview.key e]
    | some stored => exact congrArg some (hview.replace stored e)
  · rfl

/-- The entries that a frame is made of are noted as insertions, in their order. -/
theorem ofList (hview : Entry.SeenAs view) (hasher : Hasher) (entries : List ε) :
    Follows view (.ofList hasher entries) (.ofEntries view entries) := by
  have hfold : ∀ f history, Follows view f history →
      Follows view (entries.foldl (fun f new => (f.insert new).2) f)
        (history ++ .ofEntries view entries) := by
    induction entries with
    | nil =>
        intro f history h
        rw [History.ofEntries, List.map_nil, List.append_nil]
        exact h
    | cons e entries ih =>
        intro f history h
        rw [History.ofEntries, List.map_cons, List.append_cons]
        exact ih _ _ (h.insert hview e)
  exact hfold _ _ (empty hasher)

/-- An entry that is taken out was there, and is noted as removed. -/
theorem erase? (h : Follows view f history) {k : κ} {found : ε × Frame ε}
    (hfound : f.erase? k = some found) : Follows view found.2 (history.note (.remove k)) := by
  have hholds : history.holds k = true := by
    rw [← h.contains, ← f.erase?_isSome, hfound]
    rfl
  rw [History.note_of_holds hholds]
  refine h.extend _ fun k' => ?_
  rw [Edit.key]
  cases hk : k == k' with
  | true =>
      rw [← find?_congr _ hk, find?_of_erase? hfound]
      rfl
  | false =>
      rw [find?_of_erase?_of_ne hfound hk]
      rfl

omit [EquivBEq κ] in
/-- If there is no entry to take out, nothing is noted. -/
theorem note_of_erase?_eq_none (h : Follows view f history) {k : κ} (hnone : f.erase? k = none) :
    history.note (.remove k) = history := by
  apply History.note_remove_of_not_holds
  rw [← h.contains, ← f.erase?_isSome, hnone]
  rfl

end Follows

/-- A value that is assigned is noted as overwriting the one that was there. -/
theorem Follows.modify? {κ ν : Type} [BEq κ] [EquivBEq κ] [BEq ν] {f : Frame (Binding κ ν)}
    {history : History κ ν} (h : Follows id f history) {k : κ} {value : ν}
    {found : Binding κ ν × Frame (Binding κ ν)}
    (hfound : (f.modify? k fun _ => value) = some found) :
    Follows id found.2 (history.note (.overwrite k value)) := by
  rcases Option.map_eq_some_iff.mp hfound with ⟨old, hold, rfl⟩
  have hholds : history.holds k = true := by
    rw [← h.contains, contains_eq_isSome_find?, hold]
    rfl
  rw [History.note_of_holds hholds]
  refine h.extend _ fun k' => ?_
  have hkey : (old.key == k') = (k == k') := BEq.congr_left (key_beq_of_find? hold)
  rw [find?_insert]
  change Option.map id (if (old.key == k') = true then _ else _) = if (k == k') = true then _ else _
  rw [hkey]
  cases hk : k == k' with
  | true =>
      rw [← find?_congr _ hk, hold]
      rfl
  | false => rfl

end Frame
end LexicalScope
