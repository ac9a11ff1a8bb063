import LexicalScope.Proofs.Chain.Equality
import LexicalScope.Proofs.Session.Relabelling
import LexicalScope.Proofs.Text.Values
import LexicalScope.Rows.Session

/-!
# What the display shows

The text that a chain displays as shows its frames from the root, and of each frame its entries: the
keys as they were spelled, and the values.  Since keys and values are told apart by their texts, so
are frames and chains.  Two chains with at most one entry in each frame have the same text if and
only if they have equally many frames and the same entry, or none, in each of them.  This is finer
than equality of chains, which does not see how a key is spelled, and it is coarser too, since a
chain with {lit}`nan` has the text of its copy.  Hashers do not show at all.

Main results:

- Theorem {lit}`Bindings.faithful_frames`: frames of bindings are told apart by their documents.
- Theorem {lit}`Session.display_faithful`: two stacks of rows, chains of bindings or chains of names
  have the same text, in either layout, if and only if they hold the same.
-/

namespace LexicalScope

open Document (Faithful)

variable {ε κ ν ι ρ : Type}

/-! ## Frames with at most one entry -/

section Single

variable [Entry ε κ] [BEq κ]

/-- Both frames are empty, or both hold the same entry and no other. -/
def Frame.SameSingle (f g : Frame ε) : Prop :=
  (f.entries = [] ∧ g.entries = []) ∨ ∃ e, f.entries = [e] ∧ g.entries = [e]

/-- For a frame of at most one entry, holding the same single entry is having the same entries. -/
theorem Frame.sameSingle_iff {f g : Frame ε} (hf : f.size ≤ 1) :
    f.SameSingle g ↔ f.SameEntries g := by
  rw [SameSingle, SameEntries]
  rcases f with ⟨hasher, _ | ⟨e, _ | ⟨e', rest⟩⟩, distinct⟩
  · simp [eq_comm]
  · simp [eq_comm]
  · simp [size] at hf

/-- No frame of the chain has more than one entry. -/
def Chain.Orderly (c : Chain ε) : Prop :=
  ∀ frame ∈ c.stack.toList, frame.size ≤ 1

/-- The chains have the same depth, and frames with the same index are empty or hold the same. -/
structure Chain.SameSingles (c d : Chain ε) : Prop where
  depth : c.depth = d.depth
  frames : ∀ i, Option.Rel Frame.SameSingle (c.stack.frame? i) (d.stack.frame? i)

/--
Two stacks have the same entries frame by frame if and only if their lists of entries are equal.
-/
theorem Stack.related_sameEntries_iff {s t : Stack (Frame ε)} :
    s.Related Frame.SameEntries t ↔ s.toList.map Frame.entries = t.toList.map Frame.entries := by
  rw [← List.forall₂_eq_eq_eq, List.forall₂_map_left_iff, List.forall₂_map_right_iff]
  rfl

/-- For an orderly chain, holding the same single entries is having the same entries. -/
theorem Chain.sameSingles_iff {c d : Chain ε} (hc : c.Orderly) :
    c.SameSingles d ↔ c.stack.toList.map Frame.entries = d.stack.toList.map Frame.entries := by
  have hframes : ∀ i, Option.Rel Frame.SameSingle (c.stack.frame? i) (d.stack.frame? i) ↔
      Option.Rel Frame.SameEntries (c.stack.frame? i) (d.stack.frame? i) := by
    intro i
    cases hf : c.stack.frame? i with
    | none =>
        cases d.stack.frame? i with
        | none => exact iff_of_true .none .none
        | some g => exact iff_of_false nofun nofun
    | some f =>
        rw [Stack.frame?_eq_getElem?] at hf
        have hsize : f.size ≤ 1 := hc f (List.mem_of_getElem? hf)
        cases d.stack.frame? i with
        | none => exact iff_of_false nofun nofun
        | some g => rw [Option.rel_some_some, Option.rel_some_some, Frame.sameSingle_iff hsize]
  rw [← Stack.related_sameEntries_iff, Stack.Related.iff_frame?]
  constructor
  · rintro ⟨hdepth, hsame⟩
    exact ⟨hdepth, fun i => (hframes i).mp (hsame i)⟩
  · rintro ⟨hdepth, hsame⟩
    exact ⟨hdepth, fun i => (hframes i).mpr (hsame i)⟩

end Single

/-! ## Frames that display as tables and collections -/

/--
If the texts of keys and values tell them apart, that of a frame of bindings tells what it binds.
-/
theorem Bindings.faithful_frames [Display κ] [Display ν]
    (hkey : Faithful (Display.document : κ → Document))
    (hvalue : Faithful (Display.document : ν → Document)) :
    Faithful fun entries : List (Binding κ ν) =>
      Document.table (entries.map fun b => (Display.document b.key, Display.document b.value)) := by
  have hpair : Function.Injective fun b : Binding κ ν => (b.key, b.value) := by
    rintro ⟨k, v⟩ ⟨k', v'⟩ h
    rcases Prod.mk.inj h with ⟨rfl, rfl⟩
    rfl
  have htable := (hkey.table hvalue).comp hpair.list_map
  simp only [List.map_map, Function.comp_def] at htable
  exact htable

/-- If the texts of keys tell them apart, that of a frame of names tells which names it holds. -/
theorem Names.faithful_frames [Display κ] (hkey : Faithful (Display.document : κ → Document)) :
    Faithful fun entries : List (Member κ) =>
      Document.collection (entries.map fun m => Display.document m.key) := by
  have hkeys : Function.Injective fun m : Member κ => m.key := by
    rintro ⟨k⟩ ⟨k'⟩ (rfl : k = k')
    rfl
  exact (hkey.comp hkeys).collection

/-! ## What a request for the display answers -/

section Dialects

variable [Entry ε κ] [BEq κ]

/-- An orderly chain has a text, namely that of its document. -/
theorem Dialect.text?_of_orderly (dialect : Dialect ε ι ρ) (layout : Document.Layout) {c : Chain ε}
    (hc : c.Orderly) : dialect.text? layout c = some ((dialect.document c).text layout) := by
  have hsizes : (c.stack.toList.all fun frame => frame.size ≤ 1) = true := by
    simpa [Chain.Orderly] using hc
  rw [text?, if_pos hsizes]

variable [Ord κ]

/-- What the display of the chains of a dialect shows. -/
structure Dialect.FaithfulDisplay (dialect : Dialect ε ι ρ) : Prop where
  /-- A session answers the text of its chain, if no frame has more than one entry. -/
  answer : ∀ layout (s : Session ε), s.chain.Orderly → Session.exec dialect (.display layout) s =
    .ok (.text (some ((dialect.document s.chain).text layout))) s
  /-- Two chains have the same text if and only if they hold the same, frame by frame. -/
  text_eq_iff : ∀ layout (c d : Chain ε), c.Orderly → d.Orderly →
    ((dialect.document c).text layout = (dialect.document d).text layout ↔ c.SameSingles d)
  /-- The text is that of the chain without its hashers. -/
  hashers : ∀ layout (c : Chain ε),
    (dialect.document c.unlabelled).text layout = (dialect.document c).text layout

/-- A dialect that displays a record of its frames shows what it shows of their entries. -/
theorem Dialect.faithfulDisplay (dialect : Dialect ε ι ρ) {frames : List ε → Document}
    (hframes : Faithful frames) (name field : List Char)
    (hdocument : ∀ c, dialect.document c =
      .record name [(field, .sequence ((c.stack.toList.map Frame.entries).map frames))]) :
    dialect.FaithfulDisplay where
  answer := by
    intro layout s hs
    rw [Session.exec, ← dialect.text?_of_orderly layout hs]
    rfl
  text_eq_iff := by
    intro layout c d hc _
    rw [hdocument, hdocument, hframes.sequence.text_record_eq_iff layout name field,
      Chain.sameSingles_iff hc]
  hashers := by
    intro layout c
    have hentries := Stack.related_sameEntries_iff.mp c.sameEntries_unlabelled.stack
    rw [hdocument, hdocument, hentries]

end Dialects

/-- What the display shows of chains of bindings and of chains of names with keys of one kind. -/
structure FaithfulDisplays (κ : Type) [BEq κ] [Ord κ] [Display κ] : Prop where
  bindings : (BindingRequest.dialect : Dialect (Binding κ Value) _ _).FaithfulDisplay
  names : (NameRequest.dialect : Dialect (Member κ) _ _).FaithfulDisplay

/-- If the texts of keys tell them apart, the texts of chains tell what their frames hold. -/
theorem faithfulDisplays [BEq κ] [Ord κ] [Display κ]
    (hkey : Faithful (Display.document : κ → Document)) : FaithfulDisplays κ where
  bindings := by
    refine Dialect.faithfulDisplay _ (Bindings.faithful_frames hkey Value.faithful)
      "ScopeMap".toList "scopes".toList fun c => ?_
    rw [List.map_map]
    rfl
  names := by
    refine Dialect.faithfulDisplay _ (Names.faithful_frames hkey)
      "ScopeSet".toList "scopes".toList fun c => ?_
    rw [List.map_map]
    rfl

/-- What the display of stacks of rows shows. -/
structure Rows.FaithfulDisplay : Prop where
  answer : ∀ layout (s : Session), Session.exec (.display layout) s =
    (.text ((Display.document s.stack.toList).text layout), s)
  text_eq_iff : ∀ layout (s t : Stack Row),
    (Display.document s.toList).text layout = (Display.document t.toList).text layout ↔
      (s == t) = true

/-- The texts of stacks of rows tell what the rows hold. -/
theorem Rows.faithfulDisplay : FaithfulDisplay where
  answer := by
    intro layout s
    rw [Session.exec]
    rfl
  text_eq_iff := by
    intro layout s t
    have hrows : Faithful (Display.document : List Row → Document) :=
      ((Document.faithful_list Document.faithful_int64).comp fun _ _ => Row.toList_inj.mp).sequence
    rw [hrows.text_eq_iff layout, Stack.Related.beq_iff_related]
    simp only [beq_iff_eq]
    exact Iff.of_eq (congrFun (congrFun List.forall₂_eq_eq_eq.symm _) _)

/--
The texts of two stacks of rows are the same if and only if the stacks are equal.  The texts of
two chains of bindings, or of names, with keys of one kind and at most one entry in each frame
are the same if and only if the chains have the same depth and in every frame both are empty or
hold the same entry, its key spelled alike and its value identical.  This holds in both layouts,
and hashers do not show.
-/
theorem Session.display_faithful :
    Rows.FaithfulDisplay ∧ FaithfulDisplays String ∧ FaithfulDisplays Int64 ∧
      FaithfulDisplays (List Int64) ∧ FaithfulDisplays CaseFolded :=
  ⟨Rows.faithfulDisplay, faithfulDisplays Document.faithful_string,
    faithfulDisplays Document.faithful_int64,
    faithfulDisplays (Document.faithful_list Document.faithful_int64),
    faithfulDisplays Document.faithful_caseFolded⟩

/-- A chain with {lit}`nan` and its copy with another hasher, and a chain in two spellings. -/
theorem Session.display_faithful_respelled :
    let chain : String → Value → Hasher → Bindings CaseFolded Value := fun spelling v hasher =>
      (Chain.ofRoot (.ofList hasher [⟨CaseFolded.ofSpelling spelling, v⟩])).push
    let c := chain "Sum" (.list [.int 1, .list [.nan]]) .standard
    let copy := chain "Sum" (.list [.int 1, .list [.nan]]) (.marked 3)
    let d := chain "Sum" .null .standard
    let respelled := chain "sum" .null .standard
    FaithfulDisplays CaseFolded ∧ c.Orderly ∧ d.Orderly ∧
      (∀ layout, c.document.text layout = copy.document.text layout) ∧ (c == copy) = false ∧
      (∀ layout, d.document.text layout ≠ respelled.document.text layout) ∧
      (d == respelled) = true := by
  intro chain c copy d respelled
  have hfaithful : FaithfulDisplays CaseFolded := display_faithful.2.2.2.2
  have horderly : ∀ spelling v hasher, (chain spelling v hasher).Orderly := by
    intro spelling v hasher frame hframe
    rcases List.mem_cons.mp hframe with rfl | hpushed
    · exact Nat.le_refl 1
    · rw [List.mem_singleton.mp hpushed]
      exact Nat.zero_le 1
  have hentries : ∀ spelling v hasher, (chain spelling v hasher).stack.toList.map Frame.entries =
      [[⟨CaseFolded.ofSpelling spelling, v⟩], []] := fun _ _ _ => rfl
  refine ⟨hfaithful, horderly _ _ _, horderly _ _ _, fun layout => ?_, ?_, fun layout => ?_, ?_⟩
  · refine (hfaithful.bindings.text_eq_iff layout c copy (horderly _ _ _) (horderly _ _ _)).mpr ?_
    rw [Chain.sameSingles_iff (horderly _ _ _), hentries, hentries]
  · decide +kernel
  · intro htext
    have hsame := (hfaithful.bindings.text_eq_iff layout d respelled (horderly _ _ _)
      (horderly _ _ _)).mp htext
    rw [Chain.sameSingles_iff (horderly _ _ _), hentries, hentries] at hsame
    simp [← CaseFolded.spelling_inj, CaseFolded.ofSpelling] at hsame
  · decide +kernel

end LexicalScope
