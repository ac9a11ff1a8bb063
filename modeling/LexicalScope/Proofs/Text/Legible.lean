import LexicalScope.Text.Document

/-!
# Texts that can be told apart

The items of a container are written one after the other, and an item that ended in the middle of
another one would make two containers look alike.  So it is not enough that items have different
texts: the text of an item has to determine the item, and where it ends, whatever follows.  What
follows an item is always the end of the text or a delimiter, and no item begins with one.

Main results:

- Theorem {lit}`Document.filled_inj`: what stands between the brackets of a container determines its
  items, in both layouts, if each item is determined by its text.
- Theorems {lit}`Document.Faithful.sequence`, {lit}`Document.Faithful.collection` and
  {lit}`Document.Faithful.table`: containers of values that can be told apart can be told apart.
- Theorem {lit}`Document.Faithful.text_record_eq_iff`: so can the records that hold them.
-/

namespace LexicalScope
namespace Document

variable {α β : Type}

/-! ## Where an item ends -/

/-- The characters that can follow an item of a container. -/
def delimiters : List Char :=
  [',', ':', ']', '}']

/-- Nothing follows, or what follows begins with a delimiter. -/
def Ended (rest : List Char) : Prop :=
  ∀ c ∈ rest.head?, c ∈ delimiters

theorem ended_nil : Ended [] :=
  nofun

/-- A text continues with a delimiter if its first character is one. -/
theorem ended_cons {c : Char} {rest : List Char} : Ended (c :: rest) ↔ c ∈ delimiters := by
  simp [Ended]

/-- A text that begins without a delimiter does so whatever follows. -/
theorem not_ended_append {text : List Char} (h : ¬Ended text) (rest : List Char) :
    ¬Ended (text ++ rest) := by
  cases text with
  | nil => exact absurd ended_nil h
  | cons c text =>
      rw [List.cons_append, ended_cons]
      rwa [ended_cons] at h

/-- A text without delimiters ends where the first delimiter stands. -/
theorem append_inj_of_ended {text text' rest rest' : List Char}
    (htext : ∀ c ∈ text, c ∉ delimiters) (htext' : ∀ c ∈ text', c ∉ delimiters)
    (hrest : Ended rest) (hrest' : Ended rest') (h : text ++ rest = text' ++ rest') :
    text = text' ∧ rest = rest' := by
  induction text generalizing text' with
  | nil =>
      cases text' with
      | nil => exact ⟨rfl, h⟩
      | cons c text' =>
          rw [List.nil_append] at h
          rw [h, List.cons_append, ended_cons] at hrest
          exact absurd hrest (htext' c List.mem_cons_self)
  | cons c text ih =>
      cases text' with
      | nil =>
          rw [List.nil_append] at h
          rw [← h, List.cons_append, ended_cons] at hrest'
          exact absurd hrest' (htext c List.mem_cons_self)
      | cons c' text' =>
          rw [List.forall_mem_cons] at htext htext'
          rw [List.cons_append, List.cons_append, List.cons.injEq] at h
          rcases h with ⟨rfl, h⟩
          rcases ih htext.2 htext'.2 h with ⟨rfl, rfl⟩
          exact ⟨rfl, rfl⟩

/-! ## Items that are determined by their texts -/

/-- Where the item is written, no other item can be read, and it ends in no other place. -/
def Determined (written : α → List Char) (a : α) : Prop :=
  ∀ b rest rest', Ended rest → Ended rest' → written a ++ rest = written b ++ rest' →
    a = b ∧ rest = rest'

/-- A way of writing items that determines each of them and begins none with a delimiter. -/
structure Legible (written : α → List Char) : Prop where
  begins : ∀ a, ¬Ended (written a)
  determined : ∀ a, Determined written a

/-- A legible way of writing tells items apart. -/
theorem Legible.injective {written : α → List Char} (h : Legible written) :
    Function.Injective written := by
  intro a b hab
  exact (h.determined a b [] [] ended_nil ended_nil (by rw [hab])).1

/--
A legible way of writing stays legible if different items are first turned into different ones.
-/
theorem Legible.comp {written : β → List Char} (h : Legible written) {f : α → β}
    (hf : Function.Injective f) : Legible fun a => written (f a) where
  begins a := h.begins (f a)
  determined := by
    intro a b rest rest' hrest hrest' hab
    rcases h.determined (f a) (f b) rest rest' hrest hrest' hab with ⟨hfab, hrests⟩
    exact ⟨hf hfab, hrests⟩

/-- A pair of a key and a value ends where its value ends. -/
theorem Legible.labelled {key : α → List Char} {value : β → List Char} (hkey : Legible key)
    (hvalue : Legible value) : Legible fun p : α × β => labelled (key p.1) (value p.2) where
  begins := by
    intro p
    rw [Document.labelled, List.append_assoc]
    exact not_ended_append (hkey.begins p.1) _
  determined := by
    rintro ⟨a, v⟩ ⟨b, w⟩ rest rest' hrest hrest' h
    have hcolon : ∀ text, Ended (':' :: text) := fun _ => ended_cons.mpr (by decide)
    simp only [Document.labelled, List.append_assoc, List.cons_append, List.nil_append] at h
    rcases hkey.determined a b _ _ (hcolon _) (hcolon _) h with ⟨rfl, hcontent⟩
    rw [List.cons.injEq, List.cons.injEq] at hcontent
    rcases hvalue.determined v w rest rest' hrest hrest' hcontent.2.2 with ⟨rfl, rfl⟩
    exact ⟨rfl, rfl⟩

/-! ## Items between brackets -/

/-- Items one after the other, each between the same two texts. -/
def framed (before after : List Char) (items : List (List Char)) : List Char :=
  items.flatMap fun item => before ++ item ++ after

/-- The first framed item stands before the others and whatever follows. -/
theorem framed_cons_append (before after item text : List Char) (items : List (List Char)) :
    framed before after (item :: items) ++ text =
      before ++ (item ++ (after ++ (framed before after items ++ text))) := by
  simp [framed]

/-- Separated items are the first one and, each after a comma and a blank, the others. -/
theorem separated_cons (item : List Char) (items : List (List Char)) :
    separated (item :: items) = item ++ framed [',', ' '] [] items := by
  induction items generalizing item with
  | nil => simp [separated, framed]
  | cons next items ih =>
      rw [separated, ih]
      · simp [framed]
      · exact nofun

/-- Stacked items stand each after a margin and before a comma and a line break. -/
theorem stacked_eq (margin : List Char) (items : List (List Char)) :
    stacked margin items = '\n' :: framed (deeper margin) [',', '\n'] items ++ margin :=
  rfl

section Framed

variable {before after closing : List Char}

/-- After an item comes the next one, or what closes the container. -/
theorem ended_framed (hitem : ∀ text, Ended (after ++ (before ++ text)))
    (hlast : ∀ text, Ended (after ++ (closing ++ text))) (items : List (List Char))
    (text : List Char) : Ended (after ++ (framed before after items ++ (closing ++ text))) := by
  cases items with
  | nil => exact hlast text
  | cons item items =>
      rw [framed_cons_append]
      exact hitem _

/--
Items between the same two texts are determined by all of it, if a next item is told apart from what
closes the container and a delimiter comes after each item.
-/
theorem framed_inj {written : α → List Char} (hitem : ∀ text, Ended (after ++ (before ++ text)))
    (hlast : ∀ text, Ended (after ++ (closing ++ text)))
    (hclosing : ∀ text text', before ++ text ≠ closing ++ text') {xs ys : List α}
    (hxs : ∀ x ∈ xs, Determined written x) {rest rest' : List Char}
    (h : framed before after (xs.map written) ++ (closing ++ rest) =
      framed before after (ys.map written) ++ (closing ++ rest')) :
    xs = ys ∧ rest = rest' := by
  have hended := ended_framed hitem hlast
  induction xs generalizing ys with
  | nil =>
      cases ys with
      | nil => exact ⟨rfl, List.append_cancel_left h⟩
      | cons y ys =>
          rw [List.map_cons, framed_cons_append] at h
          exact absurd h.symm (hclosing _ _)
  | cons x xs ih =>
      cases ys with
      | nil =>
          rw [List.map_cons, framed_cons_append] at h
          exact absurd h (hclosing _ _)
      | cons y ys =>
          rw [List.forall_mem_cons] at hxs
          rw [List.map_cons, List.map_cons, framed_cons_append, framed_cons_append] at h
          have hwritten := List.append_cancel_left h
          rcases hxs.1 y _ _ (hended _ rest) (hended _ rest') hwritten with ⟨rfl, hafter⟩
          rcases ih hxs.2 (List.append_cancel_left hafter) with ⟨rfl, rfl⟩
          exact ⟨rfl, rfl⟩

end Framed

/-- What stands between the brackets of a container at the given margin. -/
def filled (layout : Layout) (margin : List Char) (items : List (List Char)) : List Char :=
  match layout with
  | .compact => separated items
  | .indented => stackedOrEmpty margin items

theorem filled_nil (layout : Layout) (margin : List Char) : filled layout margin [] = [] := by
  cases layout <;> rfl

/-- Between the brackets of other containers the text does not begin with a delimiter. -/
theorem not_ended_filled_cons (layout : Layout) (margin : List Char) {item : List Char}
    (hitem : ¬Ended item) (items : List (List Char)) :
    ¬Ended (filled layout margin (item :: items)) := by
  cases layout with
  | compact =>
      rw [filled, separated_cons]
      exact not_ended_append hitem _
  | indented =>
      change ¬Ended ('\n' :: _)
      rw [ended_cons]
      decide

section Filled

variable {written : α → List Char} {close : Char} {rest rest' : List Char}

theorem ended_comma (text : List Char) : Ended (',' :: text) :=
  ended_cons.mpr (by decide)

/-- Separated items and what follows the closing bracket can be read off the text. -/
theorem separated_cons_inj (hclose : close ∈ delimiters) (hcomma : ',' ≠ close) {x y : α}
    {xs ys : List α} (hx : Determined written x) (hxs : ∀ x ∈ xs, Determined written x)
    (h : separated (written x :: xs.map written) ++ close :: rest =
      separated (written y :: ys.map written) ++ close :: rest') :
    x :: xs = y :: ys ∧ rest = rest' := by
  have hlast : ∀ text, Ended ([close] ++ text) := fun _ => ended_cons.mpr hclose
  have hclosing : ∀ text text' : List Char, [',', ' '] ++ text ≠ [close] ++ text' := by
    intro text text' heq
    exact hcomma (List.cons.inj heq).1
  have hended : ∀ items text, Ended (framed [',', ' '] [] items ++ ([close] ++ text)) :=
    @ended_framed [',', ' '] [] [close] (fun _ => ended_comma _) hlast
  rw [separated_cons, separated_cons, List.append_assoc, List.append_assoc] at h
  rcases hx y _ _ (hended _ rest) (hended _ rest') h with ⟨rfl, hrest⟩
  rcases framed_inj (fun _ => ended_comma _) hlast hclosing hxs hrest with ⟨rfl, rfl⟩
  exact ⟨rfl, rfl⟩

/-- Stacked items and what follows the closing bracket can be read off the text. -/
theorem stacked_inj (hclose : close ∈ delimiters) {margin : List Char} {xs ys : List α}
    (hxs : ∀ x ∈ xs, Determined written x)
    (h : stacked margin (xs.map written) ++ close :: rest =
      stacked margin (ys.map written) ++ close :: rest') : xs = ys ∧ rest = rest' := by
  -- An item stands further in than the bracket that closes its container.
  have hclosing : ∀ text text', deeper margin ++ text ≠ (margin ++ [close]) ++ text' := by
    intro text text' heq
    rw [deeper, List.append_assoc, List.append_assoc] at heq
    have hblank := (List.cons.inj (List.append_cancel_left heq)).1
    rw [← hblank] at hclose
    revert hclose
    decide
  have hbracket : ∀ text : List Char, close :: text = [close] ++ text := fun _ => rfl
  rw [stacked_eq, stacked_eq, hbracket rest, hbracket rest', List.append_assoc, List.append_assoc,
    ← List.append_assoc margin, ← List.append_assoc margin, List.cons_append, List.cons_append,
    List.cons.injEq] at h
  exact framed_inj (fun _ => ended_comma _) (fun _ => ended_comma _) hclosing hxs h.2

/-- What stands between the brackets of a container determines its items. -/
theorem filled_inj (hbegins : ∀ a, ¬Ended (written a)) (hclose : close ∈ delimiters)
    (hcomma : ',' ≠ close) (layout : Layout) (margin : List Char) {xs ys : List α}
    (hxs : ∀ x ∈ xs, Determined written x)
    (h : filled layout margin (xs.map written) ++ close :: rest =
      filled layout margin (ys.map written) ++ close :: rest') : xs = ys ∧ rest = rest' := by
  -- Where a container without items closes, one with items has not begun its first item.
  have hempty : ∀ z zs text text',
      close :: text' ≠ filled layout margin (written z :: zs) ++ text := by
    intro z zs text text' heq
    refine not_ended_append (not_ended_filled_cons layout margin (hbegins z) zs) text ?_
    rw [← heq]
    exact ended_cons.mpr hclose
  cases xs with
  | nil =>
      rw [List.map_nil, filled_nil, List.nil_append] at h
      cases ys with
      | nil =>
          rw [List.map_nil, filled_nil, List.nil_append, List.cons.injEq] at h
          exact ⟨rfl, h.2⟩
      | cons y ys => exact absurd h (hempty y _ _ _)
  | cons x xs =>
      cases ys with
      | nil =>
          rw [List.map_nil, filled_nil, List.nil_append] at h
          exact absurd h.symm (hempty x _ _ _)
      | cons y ys =>
          cases layout with
          | compact =>
              rw [List.forall_mem_cons] at hxs
              exact separated_cons_inj hclose hcomma hxs.1 hxs.2 h
          | indented => exact stacked_inj hclose hxs h

end Filled

/-- A container with its brackets. -/
def enclosed (opening close : Char) (layout : Layout) (margin : List Char)
    (items : List (List Char)) : List Char :=
  opening :: filled layout margin items ++ [close]

/-- A container is determined by its text if all its items are. -/
theorem determined_enclosed {written : α → List Char} (hbegins : ∀ a, ¬Ended (written a))
    {opening close : Char} (hclose : close ∈ delimiters) (hcomma : ',' ≠ close) (layout : Layout)
    (margin : List Char) {xs : List α} (hxs : ∀ x ∈ xs, Determined written x) :
    Determined (fun xs => enclosed opening close layout margin (xs.map written)) xs := by
  intro ys rest rest' _ _ h
  simp only [enclosed, List.cons_append, List.append_assoc, List.cons.injEq, true_and] at h
  exact filled_inj hbegins hclose hcomma layout margin hxs h

/-- Containers of items that are determined by their texts are determined by theirs. -/
theorem Legible.enclosed {written : α → List Char} (h : Legible written) {opening close : Char}
    (hopening : opening ∉ delimiters) (hclose : close ∈ delimiters) (hcomma : ',' ≠ close)
    (layout : Layout) (margin : List Char) :
    Legible fun xs : List α => enclosed opening close layout margin (xs.map written) where
  begins := by
    intro xs
    rw [Document.enclosed, List.cons_append, ended_cons]
    exact hopening
  determined xs :=
    determined_enclosed h.begins hclose hcomma layout margin fun x _ => h.determined x

/-! ## Documents in either layout -/

/-- The characters of a document in a layout, at a margin. -/
def chars (layout : Layout) (margin : List Char) (d : Document) : List Char :=
  match layout with
  | .compact => d.line
  | .indented => d.block margin

/-- The text of a document consists of its characters, with no margin around it. -/
theorem text_eq (layout : Layout) (d : Document) :
    d.text layout = String.ofList (d.chars layout []) := by
  cases layout <;> rfl

theorem chars_atom (layout : Layout) (margin text : List Char) :
    (atom text).chars layout margin = text := by
  cases layout <;> simp [chars, line, block]

theorem lines_eq_map (items : List Document) : lines items = items.map line := by
  induction items with
  | nil => rfl
  | cons item items ih => rw [lines, ih, List.map_cons]

theorem blocks_eq_map (margin : List Char) (items : List Document) :
    blocks margin items = items.map (block margin) := by
  induction items with
  | nil => rfl
  | cons item items ih => rw [blocks, ih, List.map_cons]

theorem pairLines_eq_map (pairs : List (Document × Document)) :
    pairLines pairs = pairs.map fun p => labelled p.1.line p.2.line := by
  induction pairs with
  | nil => rfl
  | cons pair pairs ih => rw [pairLines, ih, List.map_cons]

theorem pairBlocks_eq_map (margin : List Char) (pairs : List (Document × Document)) :
    pairBlocks margin pairs =
      pairs.map fun p => labelled (p.1.block margin) (p.2.block margin) := by
  induction pairs with
  | nil => rfl
  | cons pair pairs ih => rw [pairBlocks, ih, List.map_cons]

/-- A sequence encloses its items in square brackets, whatever the layout. -/
theorem chars_sequence (layout : Layout) (margin : List Char) (items : List Document) :
    (sequence items).chars layout margin =
      enclosed '[' ']' layout margin (items.map (chars layout (deeper margin))) := by
  cases layout with
  | compact => rw [chars, line, lines_eq_map]; rfl
  | indented => rw [chars, block, blocks_eq_map]; rfl

/-- A collection encloses its items in braces, whatever the layout. -/
theorem chars_collection (layout : Layout) (margin : List Char) (items : List Document) :
    (collection items).chars layout margin =
      enclosed '{' '}' layout margin (items.map (chars layout (deeper margin))) := by
  cases layout with
  | compact => rw [chars, line, lines_eq_map]; rfl
  | indented => rw [chars, block, blocks_eq_map]; rfl

/-- A table encloses its labelled values in braces, whatever the layout. -/
theorem chars_table (layout : Layout) (margin : List Char) (pairs : List (Document × Document)) :
    (table pairs).chars layout margin =
      enclosed '{' '}' layout margin (pairs.map fun p =>
        labelled (p.1.chars layout (deeper margin)) (p.2.chars layout (deeper margin))) := by
  cases layout with
  | compact => rw [chars, line, pairLines_eq_map]; rfl
  | indented => rw [chars, block, pairBlocks_eq_map]; rfl

/-- A record with one field is the same text before and after the document in its field. -/
theorem exists_chars_record (layout : Layout) (margin name field : List Char) :
    ∃ before after, ∀ d : Document, (record name [(field, d)]).chars layout margin =
      before ++ d.chars layout (deeper margin) ++ after := by
  cases layout with
  | compact =>
      refine ⟨name ++ [' ', '{', ' '] ++ field ++ [':', ' '], [' ', '}'], fun d => ?_⟩
      simp [chars, line, fieldLines, separated, labelled]
  | indented =>
      refine ⟨name ++ [' ', '{', '\n'] ++ deeper margin ++ field ++ [':', ' '],
        [',', '\n'] ++ margin ++ ['}'], fun d => ?_⟩
      simp [chars, block, fieldBlocks, stacked, labelled]

/-! ## Values with documents that can be told apart -/

/-- The documents of different values are told apart in both layouts, at every margin. -/
def Faithful (document : α → Document) : Prop :=
  ∀ layout margin, Legible fun a => (document a).chars layout margin

namespace Faithful

/-- A faithful document stays faithful if different items are first turned into different ones. -/
theorem comp {document : β → Document} (h : Faithful document) {f : α → β}
    (hf : Function.Injective f) : Faithful fun a => document (f a) :=
  fun layout margin => (h layout margin).comp hf

/-- A list of values is determined by the sequence of their documents if each of them is. -/
theorem determined_sequence {document : α → Document} (layout : Layout) (margin : List Char)
    (hbegins : ∀ a, ¬Ended ((document a).chars layout (deeper margin))) {xs : List α}
    (hxs : ∀ x ∈ xs, Determined (fun a => (document a).chars layout (deeper margin)) x) :
    Determined (fun xs => (Document.sequence (xs.map document)).chars layout margin) xs := by
  simp only [chars_sequence, List.map_map]
  exact determined_enclosed hbegins (by decide) (by decide) layout margin hxs

/-- A sequence of items with faithful documents is faithful. -/
theorem sequence {document : α → Document} (h : Faithful document) :
    Faithful fun xs : List α => Document.sequence (xs.map document) := by
  intro layout margin
  simp only [chars_sequence, List.map_map]
  exact (h layout (deeper margin)).enclosed (by decide) (by decide) (by decide) layout margin

/-- A collection of items with faithful documents is faithful. -/
theorem collection {document : α → Document} (h : Faithful document) :
    Faithful fun xs : List α => Document.collection (xs.map document) := by
  intro layout margin
  simp only [chars_collection, List.map_map]
  exact (h layout (deeper margin)).enclosed (by decide) (by decide) (by decide) layout margin

/-- A table of keys and values with faithful documents is faithful. -/
theorem table {key : α → Document} {value : β → Document} (hkey : Faithful key)
    (hvalue : Faithful value) :
    Faithful fun xs : List (α × β) => Document.table (xs.map fun p => (key p.1, value p.2)) := by
  intro layout margin
  have hpairs := (hkey layout (deeper margin)).labelled (hvalue layout (deeper margin))
  simp only [chars_table, List.map_map]
  exact hpairs.enclosed (by decide) (by decide) (by decide) layout margin

/-- Items with a faithful document have equal texts if and only if they are equal. -/
theorem text_eq_iff {document : α → Document} (h : Faithful document) (layout : Layout) {a b : α} :
    (document a).text layout = (document b).text layout ↔ a = b := by
  rw [text_eq, text_eq, String.ofList_inj]
  exact (h layout []).injective.eq_iff

/-- A record with one field tells apart what its field tells apart. -/
theorem text_record_eq_iff {document : α → Document} (h : Faithful document) (layout : Layout)
    (name field : List Char) {a b : α} :
    (record name [(field, document a)]).text layout =
      (record name [(field, document b)]).text layout ↔ a = b := by
  rcases exists_chars_record layout [] name field with ⟨before, after, hrecord⟩
  rw [text_eq, text_eq, String.ofList_inj, hrecord, hrecord, List.append_left_inj,
    List.append_right_inj]
  exact (h layout (deeper [])).injective.eq_iff

end Faithful
end Document
end LexicalScope
