import LexicalScope.Text.Document

/-!
# Rows

A row is a list of 64-bit integers that grows at its end.  It is kept with the latest
integer first, so that appending takes the same time however long the row is.

Main results:

- Theorem {lit}`Row.toList_push`: an appended integer comes after all others.
- Theorem {lit}`Row.toList_inj`: rows that list the same integers are the same.
-/

namespace LexicalScope
namespace Rows

/-- A list of integers that grows at its end. -/
structure Row where
  /-- The integers, the latest first. -/
  latestFirst : List Int64
  deriving DecidableEq

namespace Row

/-- The row that lists the given integers. -/
def ofList (items : List Int64) : Row :=
  ⟨items.reverse⟩

/-- The integers of a row in order. -/
def toList (row : Row) : List Int64 :=
  row.latestFirst.reverse

/-- Appends an integer. -/
def push (row : Row) (n : Int64) : Row :=
  ⟨n :: row.latestFirst⟩

/-- How many integers there are. -/
def length (row : Row) : Nat :=
  row.latestFirst.length

/-- Whether an integer is among those of the row. -/
def contains (row : Row) (n : Int64) : Bool :=
  row.latestFirst.contains n

/-- A row displays as the list of its integers. -/
instance : Display Row where
  document row := Display.document row.toList

/-- A row made of a list has the items of that list. -/
@[simp]
theorem toList_ofList (items : List Int64) : (ofList items).toList = items := by
  simp [toList, ofList]

/-- An appended integer comes after all others. -/
@[simp]
theorem toList_push (row : Row) (n : Int64) : (row.push n).toList = row.toList ++ [n] := by
  simp [toList, push]

/-- Rows that list the same integers are the same. -/
theorem toList_inj {a b : Row} : a.toList = b.toList ↔ a = b := by
  cases a
  cases b
  simp [toList]

@[simp]
theorem length_toList (row : Row) : row.toList.length = row.length := by
  simp [toList, length]

end Row
end Rows
end LexicalScope
