import LexicalScope.Key.CaseFolded
import LexicalScope.Proofs.Text.Legible
import LexicalScope.Value

/-!
# Keys and values that can be told apart

Numbers and the constants are written as words, in which no bracket, quotation mark or delimiter
occurs, so a word ends where the next such character stands.  A text is written between quotation
marks, and no character of it is written as a quotation mark alone, so it ends at the next one of
those.  A list of values has brackets of its own, and its items are told apart by induction.

Main results:

- Theorem {lit}`Decimal.ofInt_injective`: integers are told apart by their digits.
- Theorem {lit}`Quoted.encode_append_inj`: a text in quotation marks is told apart from all others,
  whatever follows.
- Theorem {lit}`Value.faithful`: values are told apart by what they display as.
-/

namespace LexicalScope

/-! ## Words -/

namespace Document

variable {α : Type}

/-- The characters that begin, separate or end what is not a word. -/
def structural : List Char :=
  '"' :: '[' :: '{' :: delimiters

/-- A text in which only characters of words occur. -/
structure Word (text : List Char) : Prop where
  ne_nil : text ≠ []
  plain : ∀ c ∈ text, c ∉ structural

namespace Word

variable {text : List Char}

/-- A word does not begin with a structural character, whatever follows. -/
theorem append_ne_cons (h : Word text) (rest : List Char) {c : Char} (hc : c ∈ structural)
    (rest' : List Char) : text ++ rest ≠ c :: rest' := by
  intro heq
  cases text with
  | nil => exact h.ne_nil rfl
  | cons first text =>
      rw [List.cons_append, List.cons.injEq] at heq
      rw [heq.1] at h
      exact h.plain c List.mem_cons_self hc

/-- A word does not begin with a delimiter. -/
theorem not_ended (h : Word text) : ¬Ended text := by
  cases text with
  | nil => exact absurd rfl h.ne_nil
  | cons first text =>
      rw [ended_cons]
      intro hfirst
      exact h.plain first List.mem_cons_self (by simp [structural, hfirst])

/-- Where a word ends can be seen in the text, since a delimiter follows. -/
theorem append_inj {text' rest rest' : List Char} (h : Word text) (h' : Word text')
    (hrest : Ended rest) (hrest' : Ended rest') (heq : text ++ rest = text' ++ rest') :
    text = text' ∧ rest = rest' :=
  append_inj_of_ended (fun c hc hmem => h.plain c hc (by simp [structural, hmem]))
    (fun c hc hmem => h'.plain c hc (by simp [structural, hmem])) hrest hrest' heq

end Word

/-- Words are told apart wherever they are written. -/
theorem legible_of_word {written : α → List Char} (hword : ∀ a, Word (written a))
    (hinj : Function.Injective written) : Legible written where
  begins a := (hword a).not_ended
  determined := by
    intro a b rest rest' hrest hrest' h
    rcases (hword a).append_inj (hword b) hrest hrest' h with ⟨hab, hrests⟩
    exact ⟨hinj hab, hrests⟩

/-- Values that display as atoms are told apart if their atoms are. -/
theorem faithful_of_atom {written : α → List Char} (h : Legible written) :
    Faithful fun a => atom (written a) := by
  intro layout margin
  simp only [chars_atom]
  exact h

end Document

/-! ## Numbers -/

namespace Decimal

/-- The decimal digits are those of the library. -/
theorem ofNat_eq_toDigits (n : Nat) : ofNat n = Nat.toDigits 10 n := by
  induction n using Nat.strongRecOn with
  | ind n ih =>
      rw [ofNat]
      split
      · rename_i hlt
        rw [Nat.toDigits_of_lt_base hlt]
      · rename_i hge
        have hbase : 10 ≤ n := Nat.le_of_not_lt hge
        rw [ih (n / 10) (by omega), ← Nat.toDigits_of_base_le (by decide) hbase]

/-- Different natural numbers have different digits. -/
theorem ofNat_injective : Function.Injective ofNat := by
  intro m n h
  rw [ofNat_eq_toDigits, ofNat_eq_toDigits] at h
  rw [← Nat.ofDigitChars_ten_toDigits (n := m), h, Nat.ofDigitChars_ten_toDigits]

/-- The characters of an integer are digits, except for a minus sign before them. -/
theorem ofInt_chars {n : Int} {c : Char} (h : c ∈ ofInt n) : c = '-' ∨ c.isDigit = true := by
  have hdigits : ∀ m : Nat, c ∈ ofNat m → c.isDigit = true := by
    intro m hm
    rw [ofNat_eq_toDigits] at hm
    exact Nat.isDigit_of_mem_toDigits (by decide) (by decide) hm
  cases n with
  | ofNat m => exact Or.inr (hdigits m h)
  | negSucc m =>
      rcases List.mem_cons.mp h with hminus | hm
      · exact Or.inl hminus
      · exact Or.inr (hdigits (m + 1) hm)

/-- Every integer has a digit. -/
theorem ofInt_ne_nil (n : Int) : ofInt n ≠ [] := by
  cases n with
  | ofNat m =>
      rw [ofInt, ofNat_eq_toDigits]
      exact Nat.toDigits_ne_nil
  | negSucc m => exact List.cons_ne_nil _ _

/-- The digits of a natural number do not begin with a minus sign. -/
theorem ofNat_ne_minus_cons (m : Nat) (text : List Char) : ofNat m ≠ '-' :: text := by
  intro h
  have hminus : '-' ∈ Nat.toDigits 10 m := by
    rw [← ofNat_eq_toDigits, h]
    exact List.mem_cons_self
  have hdigit := Nat.isDigit_of_mem_toDigits (by decide) (by decide) hminus
  revert hdigit
  decide

/-- Different integers are written differently. -/
theorem ofInt_injective : Function.Injective ofInt := by
  intro m n h
  cases m with
  | ofNat m =>
      cases n with
      | ofNat n => rw [ofNat_injective h]
      | negSucc n => exact absurd h (ofNat_ne_minus_cons _ _)
  | negSucc m =>
      cases n with
      | ofNat n => exact absurd h.symm (ofNat_ne_minus_cons _ _)
      | negSucc n =>
          have hsucc := ofNat_injective (List.cons.inj h).2
          rw [Nat.succ.inj hsucc]

/-- The decimal text of an integer is a word. -/
theorem word_ofInt (n : Int) : Document.Word (ofInt n) where
  ne_nil := ofInt_ne_nil n
  plain := by
    have hdigits : ∀ c ∈ Document.structural, c ≠ '-' ∧ c.isDigit = false := by
      simp [Document.structural, Document.delimiters]
    intro c hc hmem
    rcases ofInt_chars hc with rfl | hdigit
    · exact (hdigits _ hmem).1 rfl
    · rw [(hdigits c hmem).2] at hdigit
      cases hdigit

end Decimal

/-! ## Texts -/

namespace Quoted

/-- The character that is meant by the one after a backslash. -/
def meaning : Char → Char
  | 'n' => '\n'
  | 't' => '\t'
  | 'r' => '\r'
  | c => c

/-- A character has its meaning after a backslash, or it stands for itself. -/
theorem escape_cases (c : Char) :
    (∃ code, escape c = ['\\', code] ∧ meaning code = c) ∨
      (escape c = [c] ∧ c ≠ '\\' ∧ c ≠ '"') := by
  unfold escape
  split
  case h_6 hquote hbackslash _ _ _ => exact Or.inr ⟨rfl, hbackslash, hquote⟩
  all_goals exact Or.inl ⟨_, rfl, rfl⟩

/-- A written character is told apart from all others, whatever follows. -/
theorem escape_append_inj {c d : Char} {rest rest' : List Char}
    (h : escape c ++ rest = escape d ++ rest') : c = d ∧ rest = rest' := by
  rcases escape_cases c with ⟨code, hc, hcode⟩ | ⟨hc, hbackslash, -⟩ <;>
    rcases escape_cases d with ⟨code', hd, hcode'⟩ | ⟨hd, hbackslash', -⟩ <;>
    rw [hc, hd] at h
  · simp only [List.cons_append, List.nil_append, List.cons.injEq, true_and] at h
    rw [← hcode, ← hcode', h.1]
    exact ⟨rfl, h.2⟩
  · exact absurd (List.cons.inj h).1.symm hbackslash'
  · exact absurd (List.cons.inj h).1 hbackslash
  · exact List.cons.inj h

/-- A character between the quotes is not written like a closing quote. -/
theorem escape_append_ne (c : Char) (rest rest' : List Char) : escape c ++ rest ≠ '"' :: rest' := by
  rcases escape_cases c with ⟨code, hc, -⟩ | ⟨hc, -, hquote⟩ <;> rw [hc]
  · exact fun h => absurd (List.cons.inj h).1 (by decide)
  · exact fun h => absurd (List.cons.inj h).1 hquote

/-- Text up to the closing quote, and what follows it, can be read off what is written. -/
theorem escapes_append_inj {s t rest rest' : List Char}
    (h : s.flatMap escape ++ '"' :: rest = t.flatMap escape ++ '"' :: rest') :
    s = t ∧ rest = rest' := by
  induction s generalizing t with
  | nil =>
      cases t with
      | nil => exact ⟨rfl, (List.cons.inj h).2⟩
      | cons d t =>
          rw [List.flatMap_cons, List.append_assoc] at h
          exact absurd h.symm (escape_append_ne d _ _)
  | cons c s ih =>
      cases t with
      | nil =>
          rw [List.flatMap_cons, List.append_assoc] at h
          exact absurd h (escape_append_ne c _ _)
      | cons d t =>
          rw [List.flatMap_cons, List.flatMap_cons, List.append_assoc, List.append_assoc] at h
          rcases escape_append_inj h with ⟨rfl, hrest⟩
          rcases ih hrest with ⟨rfl, rfl⟩
          exact ⟨rfl, rfl⟩

/-- A text in quotation marks is told apart from all others, whatever follows. -/
theorem encode_append_inj {s t rest rest' : List Char}
    (h : encode s ++ rest = encode t ++ rest') : s = t ∧ rest = rest' := by
  simp only [encode, List.cons_append, List.append_assoc, List.cons.injEq, true_and,
    List.nil_append] at h
  exact escapes_append_inj h

/-- Quoted text is legible. -/
theorem legible_encode : Document.Legible encode where
  begins := by
    intro s
    rw [encode, Document.ended_cons]
    decide
  determined := fun _ _ _ _ _ _ => encode_append_inj

end Quoted

/-! ## Keys -/

namespace Document

variable {α : Type} [Display α]

/-- The document of a text is faithful. -/
theorem faithful_string : Faithful (Display.document : String → Document) :=
  (faithful_of_atom Quoted.legible_encode).comp fun _ _ => String.toList_inj.mp

/-- The document of an integer is faithful. -/
theorem faithful_int64 : Faithful (Display.document : Int64 → Document) := by
  have hwritten : Legible Decimal.ofInt :=
    legible_of_word Decimal.word_ofInt Decimal.ofInt_injective
  exact (faithful_of_atom hwritten).comp fun _ _ => Int64.toInt_inj.mp

/-- The document of a list is faithful if those of its items are. -/
theorem faithful_list (h : Faithful (Display.document : α → Document)) :
    Faithful (Display.document : List α → Document) :=
  h.sequence

/-- The document of a case-folded key is faithful, its spelling included. -/
theorem faithful_caseFolded : Faithful (Display.document : CaseFolded → Document) :=
  faithful_string.comp fun _ _ => CaseFolded.spelling_inj.mp

end Document

/-! ## Values -/

namespace Value

open Document

/-- The values that are written as words of their own. -/
def constants : List (Value × List Char) :=
  [(.null, "null".toList), (.bool true, "true".toList), (.bool false, "false".toList),
    (.nan, "NaN".toList)]

/-- The value is written as this word: it is a constant or an integer. -/
def WrittenAs (v : Value) (word : List Char) : Prop :=
  (v, word) ∈ constants ∨ ∃ n, v = .int n ∧ word = Decimal.ofInt n.toInt

/-- A value is written as a word, as a text or as a list. -/
theorem toDocument_cases (v : Value) :
    (∃ word, v.WrittenAs word ∧ v.toDocument = .atom word) ∨ (∃ s, v = .text s) ∨
      ∃ items, v = .list items := by
  cases v with
  | null => exact Or.inl ⟨_, Or.inl (by simp [constants]), rfl⟩
  | bool b => cases b <;> exact Or.inl ⟨_, Or.inl (by simp [constants]), rfl⟩
  | int n => exact Or.inl ⟨_, Or.inr ⟨n, rfl, rfl⟩, rfl⟩
  | text s => exact Or.inr (Or.inl ⟨s, rfl⟩)
  | list items => exact Or.inr (Or.inr ⟨items, rfl⟩)
  | nan => exact Or.inl ⟨_, Or.inl (by simp [constants]), rfl⟩

/-- A constant is written with a letter, in which it differs from all integers. -/
theorem exists_letter {v : Value} {word : List Char} (h : (v, word) ∈ constants) :
    ∃ c ∈ word, ¬(c = '-' ∨ c.isDigit = true) := by
  have hletters : ∀ word ∈ constants.map Prod.snd, ∃ c ∈ word, ¬(c = '-' ∨ c.isDigit = true) := by
    simp [constants]
  exact hletters word (List.mem_map_of_mem h)

/-- No two constants are written with the same word. -/
theorem constants_inj {a b : Value} {word : List Char} (ha : (a, word) ∈ constants)
    (hb : (b, word) ∈ constants) : a = b := by
  simp only [constants, List.mem_cons, Prod.mk.injEq, List.not_mem_nil, or_false] at ha hb
  rcases ha with ⟨rfl, rfl⟩ | ⟨rfl, rfl⟩ | ⟨rfl, rfl⟩ | ⟨rfl, rfl⟩ <;> simp_all

namespace WrittenAs

variable {a b : Value} {w : List Char}

/-- A value that is written as a word is written as a proper one. -/
theorem word (h : a.WrittenAs w) : Word w := by
  rcases h with h | ⟨n, -, rfl⟩
  · have hwords : ∀ word ∈ constants.map Prod.snd,
        word ≠ [] ∧ ∀ c ∈ word, c ∉ structural := by
      simp [constants, structural, delimiters]
    rcases hwords w (List.mem_map_of_mem h) with ⟨hne, hplain⟩
    exact ⟨hne, hplain⟩
  · exact Decimal.word_ofInt n.toInt

/-- Values that are written as the same word are equal. -/
theorem inj (ha : a.WrittenAs w) (hb : b.WrittenAs w) : a = b := by
  rcases ha with ha | ⟨m, rfl, rfl⟩ <;> rcases hb with hb | ⟨n, rfl, hn⟩
  · exact constants_inj ha hb
  · rcases exists_letter ha with ⟨c, hc, hletter⟩
    rw [hn] at hc
    exact absurd (Decimal.ofInt_chars hc) hletter
  · rcases exists_letter hb with ⟨c, hc, hletter⟩
    exact absurd (Decimal.ofInt_chars hc) hletter
  · rw [Int64.toInt_inj.mp (Decimal.ofInt_injective hn)]

end WrittenAs

theorem itemDocuments_eq_map (items : List Value) : itemDocuments items = items.map toDocument := by
  induction items with
  | nil => rfl
  | cons item items ih => rw [itemDocuments, ih, List.map_cons]

section Layout

variable (layout : Layout) (margin : List Char)

/-- The characters of what a value displays as. -/
def chars (v : Value) : List Char :=
  v.toDocument.chars layout margin

/-- A text is written between quotes in both layouts. -/
theorem chars_text (s : String) : (text s).chars layout margin = Quoted.encode s.toList := by
  rw [chars, toDocument]
  exact chars_atom layout margin _

/-- A list is written like the sequence of its items. -/
theorem chars_list (items : List Value) : (list items).chars layout margin =
    (sequence (items.map toDocument)).chars layout margin := by
  rw [chars, toDocument, itemDocuments_eq_map]

/-- A value whose document is an atom is written as it stands. -/
theorem chars_of_toDocument {v : Value} {word : List Char} (h : v.toDocument = .atom word) :
    v.chars layout margin = word := by
  rw [chars, h, chars_atom]

variable {layout margin} {v : Value} {rest rest' : List Char}

/-- No value is written with a delimiter at the beginning. -/
theorem not_ended_chars (v : Value) : ¬Ended (v.chars layout margin) := by
  rcases v.toDocument_cases with ⟨word, hword, hv⟩ | ⟨s, rfl⟩ | ⟨items, rfl⟩
  · rw [chars_of_toDocument layout margin hv]
    exact hword.word.not_ended
  · rw [chars_text]
    exact Quoted.legible_encode.begins s.toList
  · rw [chars_list, chars_sequence, enclosed, List.cons_append, ended_cons]
    decide

/-- Only a text begins with a quotation mark. -/
theorem exists_text_of_chars (h : v.chars layout margin ++ rest = '"' :: rest') :
    ∃ s, v = .text s := by
  rcases v.toDocument_cases with ⟨word, hword, hv⟩ | htext | ⟨items, rfl⟩
  · rw [chars_of_toDocument layout margin hv] at h
    exact absurd h (hword.word.append_ne_cons rest (by decide) rest')
  · exact htext
  · rw [chars_list, chars_sequence] at h
    exact absurd (List.cons.inj h).1 (by decide)

/-- Only a list begins with a square bracket. -/
theorem exists_list_of_chars (h : v.chars layout margin ++ rest = '[' :: rest') :
    ∃ items, v = .list items := by
  rcases v.toDocument_cases with ⟨word, hword, hv⟩ | ⟨s, rfl⟩ | hlist
  · rw [chars_of_toDocument layout margin hv] at h
    exact absurd h (hword.word.append_ne_cons rest (by decide) rest')
  · rw [chars_text] at h
    exact absurd (List.cons.inj h).1 (by decide)
  · exact hlist

/-- A value that is written as a word is determined by it. -/
theorem determined_word {word : List Char} (hword : v.WrittenAs word)
    (hv : v.toDocument = .atom word) : Determined (chars layout margin) v := by
  intro b rest rest' hrest hrest' h
  rw [chars_of_toDocument layout margin hv] at h
  rcases b.toDocument_cases with ⟨word', hword', hb⟩ | ⟨s, rfl⟩ | ⟨items, rfl⟩
  · rw [chars_of_toDocument layout margin hb] at h
    rcases hword.word.append_inj hword'.word hrest hrest' h with ⟨rfl, hrests⟩
    exact ⟨hword.inj hword', hrests⟩
  · rw [chars_text] at h
    exact absurd h (hword.word.append_ne_cons rest (by decide) _)
  · rw [chars_list, chars_sequence] at h
    exact absurd h (hword.word.append_ne_cons rest (by decide) _)

/-- A text is determined by what is written between the quotes. -/
theorem determined_text (s : String) : Determined (chars layout margin) (.text s) := by
  intro b rest rest' hrest hrest' h
  rw [chars_text] at h
  rcases exists_text_of_chars h.symm with ⟨t, rfl⟩
  rw [chars_text] at h
  rcases Quoted.encode_append_inj h with ⟨hchars, hrests⟩
  exact ⟨by rw [String.toList_inj.mp hchars], hrests⟩

/-- A list is determined by its text if its items are, with one more margin. -/
theorem determined_list {items : List Value}
    (hitems : ∀ x ∈ items, Determined (chars layout (deeper margin)) x) :
    Determined (chars layout margin) (.list items) := by
  intro b rest rest' hrest hrest' h
  rw [chars_list] at h
  have hfirst := h
  rw [chars_sequence] at hfirst
  rcases exists_list_of_chars hfirst.symm with ⟨items', rfl⟩
  rw [chars_list] at h
  have hsequence := Faithful.determined_sequence layout margin not_ended_chars hitems
  rcases hsequence items' rest rest' hrest hrest' h with ⟨rfl, hrests⟩
  exact ⟨rfl, hrests⟩

/-- A value other than a list is determined by its text. -/
theorem determined_of_ne_list (h : ∀ items, v ≠ .list items) :
    Determined (chars layout margin) v := by
  rcases v.toDocument_cases with ⟨word, hword, hv⟩ | ⟨s, rfl⟩ | ⟨items, rfl⟩
  · exact determined_word hword hv
  · exact determined_text s
  · exact absurd rfl (h items)

end Layout

mutual

/-- The text of a value determines it; the induction is on the value, for all margins at once. -/
theorem determined (layout : Layout) : ∀ (v : Value) (margin : List Char),
    Determined (chars layout margin) v
  | .list items, _ => determined_list fun x hx => determined_item layout items x hx _
  | .null, _ | .bool _, _ | .int _, _ | .text _, _ | .nan, _ => determined_of_ne_list nofun

/-- Every item of a list is determined by its text. -/
theorem determined_item (layout : Layout) : ∀ (items : List Value), ∀ x ∈ items,
    ∀ margin : List Char, Determined (chars layout margin) x
  | [] => nofun
  | item :: rest => by
    rw [List.forall_mem_cons]
    exact ⟨determined layout item, determined_item layout rest⟩

end

/-- Values are told apart by what they display as, {lit}`nan` being the same as itself. -/
theorem faithful : Faithful (Display.document : Value → Document) :=
  fun layout margin => ⟨not_ended_chars, fun v => determined layout v margin⟩

end Value
end LexicalScope
