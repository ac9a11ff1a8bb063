/-!
# Documents

A document is what a value displays as: an atom, a sequence in brackets, a
collection or a table in braces, or a record with named fields.  A document has
two layouts, {lit}`Document.line` on one line and {lit}`Document.block` with one
element to a line, each element four spaces further in and followed by a comma.
An empty sequence, collection or table is written without a line break in both.

Two kinds of atoms are built here: whole numbers in decimal digits and texts between
double quotes.
-/

namespace LexicalScope

/-! ## Decimal text -/

namespace Decimal

/-- The decimal digits of a natural number, the most significant first and no leading zero. -/
def ofNat (n : Nat) : List Char :=
  if n < 10 then [Nat.digitChar n]
  else ofNat (n / 10) ++ [Nat.digitChar (n % 10)]

/-- The decimal digits of an integer, after a minus sign if it is negative. -/
def ofInt : Int → List Char
  | .ofNat n => ofNat n
  | .negSucc n => '-' :: ofNat (n + 1)

/-- The decimal text of a natural number. -/
def text (n : Nat) : String :=
  String.ofList (ofNat n)

end Decimal

/-! ## Quoted text -/

namespace Quoted

/--
How one character is written between the quotes.  A double quote and a backslash follow a
backslash, and a newline, a tab and a carriage return are written as backslash escapes.
Every other character stands for itself.
-/
def escape : Char → List Char
  | '"' => ['\\', '"']
  | '\\' => ['\\', '\\']
  | '\n' => ['\\', 'n']
  | '\t' => ['\\', 't']
  | '\r' => ['\\', 'r']
  | c => [c]

/-- The written form of a text, quotes included. -/
def encode (text : List Char) : List Char :=
  '"' :: (text.flatMap escape ++ ['"'])

end Quoted

/-! ## Documents -/

/-- A value as it is displayed, before a layout is chosen. -/
inductive Document where
  /-- A text that is written as it stands. -/
  | atom (text : List Char)
  /-- Items in square brackets. -/
  | sequence (items : List Document)
  /-- Items in braces. -/
  | collection (items : List Document)
  /-- Pairs of a key and a value in braces. -/
  | table (pairs : List (Document × Document))
  /-- A name followed by named fields in braces. -/
  | record (name : List Char) (fields : List (List Char × Document))

namespace Document

/-! ## The layout on one line -/

/-- Items separated by a comma and a blank. -/
def separated : List (List Char) → List Char
  | [] => []
  | [item] => item
  | item :: rest => item ++ [',', ' '] ++ separated rest

/-- A name or key, a colon, and what belongs to it. -/
def labelled (label content : List Char) : List Char :=
  label ++ [':', ' '] ++ content

mutual

/-- The document on one line. -/
def line : Document → List Char
  | .atom text => text
  | .sequence items => '[' :: separated (lines items) ++ [']']
  | .collection items => '{' :: separated (lines items) ++ ['}']
  | .table pairs => '{' :: separated (pairLines pairs) ++ ['}']
  | .record name fields => name ++ [' ', '{', ' '] ++ separated (fieldLines fields) ++ [' ', '}']

/-- Each item on one line. -/
def lines : List Document → List (List Char)
  | [] => []
  | item :: rest => line item :: lines rest

/-- Each pair on one line. -/
def pairLines : List (Document × Document) → List (List Char)
  | [] => []
  | (key, value) :: rest => labelled (line key) (line value) :: pairLines rest

/-- Each field on one line. -/
def fieldLines : List (List Char × Document) → List (List Char)
  | [] => []
  | (name, value) :: rest => labelled name (line value) :: fieldLines rest

end

/-! ## The layout with one element to a line -/

/-- The margin of the elements inside a container that starts at the given margin. -/
def deeper (margin : List Char) : List Char :=
  margin ++ [' ', ' ', ' ', ' ']

/-- The elements of a container, each on lines of its own, and the margin of its closing bracket. -/
def stacked (margin : List Char) (items : List (List Char)) : List Char :=
  '\n' :: (items.flatMap fun item => deeper margin ++ item ++ [',', '\n']) ++ margin

/-- Like {lit}`stacked`, but nothing at all between the brackets of an empty container. -/
def stackedOrEmpty (margin : List Char) (items : List (List Char)) : List Char :=
  if items.isEmpty then [] else stacked margin items

mutual

/-- The document with one element to a line; every line but the first starts with the margin. -/
def block (margin : List Char) : Document → List Char
  | .atom text => text
  | .sequence items => '[' :: stackedOrEmpty margin (blocks (deeper margin) items) ++ [']']
  | .collection items => '{' :: stackedOrEmpty margin (blocks (deeper margin) items) ++ ['}']
  | .table pairs => '{' :: stackedOrEmpty margin (pairBlocks (deeper margin) pairs) ++ ['}']
  | .record name fields =>
      name ++ [' ', '{'] ++ stacked margin (fieldBlocks (deeper margin) fields) ++ ['}']

/-- Each item as a block. -/
def blocks (margin : List Char) : List Document → List (List Char)
  | [] => []
  | item :: rest => block margin item :: blocks margin rest

/-- Each pair as a block. -/
def pairBlocks (margin : List Char) : List (Document × Document) → List (List Char)
  | [] => []
  | (key, value) :: rest =>
      labelled (block margin key) (block margin value) :: pairBlocks margin rest

/-- Each field as a block. -/
def fieldBlocks (margin : List Char) : List (List Char × Document) → List (List Char)
  | [] => []
  | (name, value) :: rest => labelled name (block margin value) :: fieldBlocks margin rest

end

/-! ## Text -/

/-- The two layouts a document can be written in. -/
inductive Layout where
  /-- Everything on one line. -/
  | compact
  /-- One element to a line. -/
  | indented
  deriving DecidableEq

/-- The text of a document in a layout. -/
def text (layout : Layout) (d : Document) : String :=
  match layout with
  | .compact => String.ofList d.line
  | .indented => String.ofList (d.block [])

end Document

/-! ## Values with a display -/

/-- Values that can be displayed. -/
class Display (α : Type) where
  /-- What the value displays as. -/
  document : α → Document

instance : Display String where
  document s := .atom (Quoted.encode s.toList)

instance : Display Int64 where
  document n := .atom (Decimal.ofInt n.toInt)

instance {α : Type} [Display α] : Display (List α) where
  document items := .sequence (items.map Display.document)

end LexicalScope
