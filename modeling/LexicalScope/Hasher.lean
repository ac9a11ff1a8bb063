/-!
# Hasher labels

Every frame carries the hasher it was made with.  All that shows of a hasher is its
label: either it is the standard one, or it is marked with a number.  A chain keeps
to the kind of hasher it began with, so a request for a marked hasher has no effect
in a chain of standard ones.
-/

namespace LexicalScope

/-- What shows of the hasher of a frame. -/
inductive Hasher where
  /-- The standard hasher. -/
  | standard
  /-- A hasher marked with a number. -/
  | marked (mark : UInt64)
  deriving DecidableEq

namespace Hasher

/-- The hasher of the same kind that nobody chose: the standard one, or the mark zero. -/
def unchosen : Hasher → Hasher
  | .standard => .standard
  | .marked _ => .marked 0

/-- The hasher of the same kind with the requested mark, if one is requested. -/
def withMark (h : Hasher) (requested : Option UInt64) : Hasher :=
  match h with
  | .standard => .standard
  | .marked mark => .marked (requested.getD mark)

end Hasher
end LexicalScope
