import LexicalScope.Proofs.Chain.Effect
import LexicalScope.Proofs.Frame.History
import LexicalScope.Proofs.Stack.Related
import LexicalScope.Session.BindingRequest
import LexicalScope.Session.NameRequest

/-!
# Histories of the frames of a chain

The histories of all frames of a chain are a list of lists of edits, that of the root first.  Of a
request about keys it is noted what it does, and to which frame: to the current one, to the one
with an index, or to the innermost one that holds the key.  Which frame is the innermost one is
decided by the histories alone.

Main results:

- Theorem {lit}`Chain.Follows.innermost?`: the histories tell which frame is the innermost one that
  holds a key.
- Theorems {lit}`BindingRequest.isNoted` and {lit}`NameRequest.isNoted`: every request does to the
  frames what is noted of it.
-/

namespace LexicalScope

variable {ε ι ρ κ ν : Type}

/-! ## Notes -/

/-- Which frame an edit is made in. -/
inductive Place where
  /-- The current frame. -/
  | current
  /-- The frame with an index, if there is one. -/
  | frame (index : Nat)
  /-- The innermost frame that holds the key, if there is one. -/
  | innermost
  /-- The innermost frame below an index that holds the key, if there is one. -/
  | innermostBelow (index : Nat)

/-- What is noted of a request about keys: an edit, and which frame it is made in. -/
structure Note (κ ν : Type) where
  place : Place
  edit : Edit κ ν

section Notes

variable [BEq κ]

/-- The greatest index below `x` of a frame whose history tells that it holds the key. -/
def History.innermost? (frames : List (History κ ν)) (x : Nat) (k : κ) : Option Nat :=
  ((List.range (min x frames.length)).filter fun i => frames[i]?.any fun h => h.holds k).getLast?

/-- The index of the frame that an edit about a key is made in. -/
def Place.index? (place : Place) (frames : List (History κ ν)) (k : κ) : Option Nat :=
  match place with
  | .current => some (frames.length - 1)
  | .frame index => some index
  | .innermost => History.innermost? frames frames.length k
  | .innermostBelow index => History.innermost? frames index k

/-- The histories of all frames after what was noted. -/
def Note.after (note : Note κ ν) (frames : List (History κ ν)) : List (History κ ν) :=
  match note.place.index? frames note.edit.key with
  | some index => frames.modify index fun history => history.note note.edit
  | none => frames

end Notes

/-- What is noted of a request to a chain of bindings; nothing is noted of looking at the chain. -/
def BindingRequest.note? : BindingRequest κ ν → Option (Note κ ν)
  | .declare key value => some ⟨.current, .insert key value⟩
  | .declareAt index key value => some ⟨.frame index, .insert key value⟩
  | .overwrite key value | .assign key value => some ⟨.innermost, .overwrite key value⟩
  | .overwriteBelow index key value => some ⟨.innermostBelow index, .overwrite key value⟩
  | .delete key => some ⟨.innermost, .remove key⟩
  | .deleteLocal key => some ⟨.current, .remove key⟩
  | .get _ | .getBelow _ _ | .has _ | .hasLocal _ | .hasAt _ _ | .resolve _ | .demand _ | .keys =>
    none

/-- What is noted of a request to a chain of names, which have no values. -/
def NameRequest.note? : NameRequest κ → Option (Note κ Unit)
  | .add key => some ⟨.current, .insert key ()⟩
  | .addAt index key => some ⟨.frame index, .insert key ()⟩
  | .delete key => some ⟨.innermost, .remove key⟩
  | .deleteLocal key => some ⟨.current, .remove key⟩
  | .get _ | .has _ | .hasLocal _ | .hasAt _ _ | .resolve _ => none

/-! ## Chains that follow their histories -/

/-- Every frame of the chain is as its history tells. -/
abbrev Chain.Follows [Entry ε κ] [BEq κ] (view : ε → Binding κ ν) (c : Chain ε)
    (frames : List (History κ ν)) : Prop :=
  List.Forall₂ (Frame.Follows view) c.stack.toList frames

namespace Chain.Follows

variable [Entry ε κ] [BEq κ] {view : ε → Binding κ ν} {c : Chain ε} {frames : List (History κ ν)}

/-- There are as many histories as frames. -/
theorem depth (h : Chain.Follows view c frames) : c.depth = frames.length := by
  rw [← h.length_eq, Stack.length_toList]
  rfl

/-- Each frame follows the history with its index. -/
theorem frame? (h : Chain.Follows view c frames) (i : Nat) :
    Option.Rel (Frame.Follows view) (c.stack.frame? i) frames[i]? := by
  rw [Stack.frame?_eq_getElem?]
  exact rel_getElem? h i

/-- A frame holds a key if and only if the history with its index tells so. -/
theorem hasAt (h : Chain.Follows view c frames) (i : Nat) (k : κ) :
    c.hasAt i k = frames[i]?.any fun history => history.holds k := by
  rw [Chain.hasAt]
  rcases optionRel_cases (h.frame? i) with ⟨hc, hframes⟩ | ⟨f, history, hc, hframes, hf⟩
  · rw [hc, hframes]
    rfl
  · rw [hc, hframes]
    exact hf.contains k

/-- The histories tell which frame is the innermost one that holds a key. -/
theorem innermost? (h : Chain.Follows view c frames) (x : Nat) (k : κ) :
    c.innermost? x k = History.innermost? frames x k := by
  rw [Chain.innermost?, Stack.greatest?_eq_getLast?, History.innermost?, h.depth]
  simp only [h.hasAt]

/-- A frame is changed as its history is. -/
theorem setFrame (h : Chain.Follows view c frames) {i : Nat} {f changed : Frame ε}
    {edit : Edit κ ν} (hframe : c.stack.frame? i = some f)
    (hchanged : ∀ history, f.Follows view history → changed.Follows view (history.note edit)) :
    Chain.Follows view (c.setFrame i changed)
      (frames.modify i fun history => history.note edit) := by
  change List.Forall₂ _ (c.stack.setFrame i changed).toList _
  rw [Stack.toList_setFrame]
  apply forall₂_set_modify h
  intro history hhistory
  have hf := h.frame? i
  rw [hframe, hhistory, Option.rel_some_some] at hf
  exact hchanged history hf

/-- What is done to the innermost frame that holds a key is noted in its history. -/
theorem changeBelow (h : Chain.Follows view c frames)
    {change : Frame ε → Option (ε × Frame ε)} {edit : Edit κ ν}
    (hchange : ∀ frame, (change frame).isSome = frame.contains edit.key)
    (hnoted : ∀ frame found, change frame = some found → ∀ history,
      frame.Follows view history → found.2.Follows view (history.note edit)) (x : Nat) :
    Chain.Follows view (c.changeBelow x change).2
      (Note.after ⟨.innermostBelow x, edit⟩ frames) := by
  have hinnermost := h.innermost? x edit.key
  rw [Note.after, Place.index?]
  cases hindex : History.innermost? frames x edit.key with
  | none =>
      rw [hindex] at hinnermost
      rw [Chain.changeBelow_of_none hchange hinnermost]
      exact h
  | some i =>
      rw [hindex] at hinnermost
      rcases Chain.changeBelow_of_innermost? hchange hinnermost with
        ⟨f, e, changed, hframe, hfound, heq⟩
      rw [heq]
      exact h.setFrame hframe (hnoted f _ hfound)

variable [EquivBEq κ]

/-- What is put into the current frame is noted in its history. -/
theorem insert (hview : Entry.SeenAs view) (h : Chain.Follows view c frames) (e : ε) :
    Chain.Follows view (c.insert e).2
      (Note.after ⟨.current, .insert (view e).key (view e).value⟩ frames) := by
  rw [Chain.insert_eq, Note.after, Place.index?, ← h.depth]
  exact h.setFrame c.frame?_top fun _ hf => hf.insert hview e

/-- What is put into the frame with an index is noted in its history. -/
theorem insertAt (hview : Entry.SeenAs view) (h : Chain.Follows view c frames) (i : Nat) (e : ε) :
    Chain.Follows view (c.insertAt i e).2
      (Note.after ⟨.frame i, .insert (view e).key (view e).value⟩ frames) := by
  rw [Note.after, Place.index?]
  rcases optionRel_cases (h.frame? i) with ⟨hframe, hnone⟩ | ⟨f, history, hframe, -, -⟩
  · -- Without a frame with the index there is no history with it.
    have hlength : frames.length ≤ i := List.getElem?_eq_none_iff.mp hnone
    rw [Chain.insertAt_of_depth_le ((c.stack.frame?_eq_none_iff i).mp hframe)]
    change Chain.Follows view c (frames.modify i _)
    rw [List.modify_eq_self hlength]
    exact h
  · rw [Chain.insertAt_of_frame? hframe]
    exact h.setFrame hframe fun _ hf => hf.insert hview e

/-- What is taken out of the innermost frame that holds the key is noted in its history. -/
theorem erase (h : Chain.Follows view c frames) (k : κ) :
    Chain.Follows view (c.erase k).2 (Note.after ⟨.innermost, .remove k⟩ frames) := by
  rw [Chain.erase, h.depth]
  exact h.changeBelow (fun frame => frame.erase?_isSome k)
    (fun _ _ hfound _ hf => hf.erase? hfound) frames.length

/-- What is taken out of the current frame is noted in its history, unless it is not there. -/
theorem eraseLocal (h : Chain.Follows view c frames) (k : κ) :
    Chain.Follows view (c.eraseLocal k).2 (Note.after ⟨.current, .remove k⟩ frames) := by
  have htop := c.frame?_top
  rw [Note.after, Place.index?, ← h.depth]
  cases hfound : c.stack.top.erase? k with
  | none =>
      rw [Chain.eraseLocal_of_none hfound]
      have hsame : Chain.Follows view (c.setFrame (c.depth - 1) c.stack.top) _ :=
        h.setFrame htop fun history hf => by
          rw [hf.note_of_erase?_eq_none hfound]
          exact hf
      rw [Chain.setFrame_of_frame? htop] at hsame
      exact hsame
  | some found =>
      rw [Chain.eraseLocal_of_erase? hfound]
      exact h.setFrame htop fun _ hf => hf.erase? hfound

/-- A value that is assigned below an index is noted in the history of the frame with the key. -/
theorem modifyBelow [BEq ν] {c : Bindings κ ν} (h : Chain.Follows id c frames) (x : Nat) (k : κ)
    (value : ν) : Chain.Follows id (c.modifyBelow x k fun _ => value).2
      (Note.after ⟨.innermostBelow x, .overwrite k value⟩ frames) :=
  h.changeBelow (fun frame => frame.modify?_isSome k _)
    (fun _ _ hfound _ hf => hf.modify? hfound) x

/-- A value that is assigned is noted in the history of the innermost frame that binds the key. -/
theorem modify [BEq ν] {c : Bindings κ ν} (h : Chain.Follows id c frames) (k : κ) (value : ν) :
    Chain.Follows id (c.modify k fun _ => value).2
      (Note.after ⟨.innermost, .overwrite k value⟩ frames) := by
  rw [Bindings.modify, h.depth]
  exact h.modifyBelow frames.length k value

end Chain.Follows

/-! ## Requests and their notes -/

/-- Every request does to the frames of a chain what is noted of it. -/
def Dialect.IsNoted [Entry ε κ] [BEq κ] (dialect : Dialect ε ι ρ) (view : ε → Binding κ ν)
    (note? : ι → Option (Note κ ν)) : Prop :=
  ∀ request c frames, Chain.Follows view c frames →
    Chain.Follows view (dialect.fulfil request c).2
      ((note? request).elim frames fun note => note.after frames)

variable [BEq κ] [EquivBEq κ]

/-- Every request to a chain of bindings does what is noted of it. -/
theorem BindingRequest.isNoted [BEq ν] [Ord κ] [Display κ] [Display ν] :
    (dialect : Dialect (Binding κ ν) _ _).IsNoted id note? := by
  intro request c frames h
  cases request with
  | declare key value => exact h.insert Binding.seenAs ⟨key, value⟩
  | declareAt index key value => exact h.insertAt Binding.seenAs index ⟨key, value⟩
  | overwrite key value | assign key value => exact h.modify key value
  | overwriteBelow index key value => exact h.modifyBelow index key value
  | delete key => exact h.erase key
  | deleteLocal key => exact h.eraseLocal key
  | demand key =>
      change Chain.Follows id ((demand key).fulfil c).2 frames
      rw [fulfil_demand]
      exact h
  | get | getBelow | has | hasLocal | hasAt | resolve | keys => exact h

/-- Every request to a chain of names does what is noted of it. -/
theorem NameRequest.isNoted [Display κ] :
    (dialect : Dialect (Member κ) _ _).IsNoted Member.toBinding note? := by
  intro request c frames h
  cases request with
  | add key => exact h.insert Member.seenAs ⟨key⟩
  | addAt index key => exact h.insertAt Member.seenAs index ⟨key⟩
  | delete key => exact h.erase key
  | deleteLocal key => exact h.eraseLocal key
  | get | has | hasLocal | hasAt | resolve => exact h

end LexicalScope
