import LexicalScope.Chain.Basic

/-!
# Dialects

The requests about keys depend on what the frames of a chain hold.  A dialect says how
a chain fulfils them and how it displays; all other requests are the same for every
chain.  A request may be given up in the middle by a fault, which is not an answer: the
step that it happens in ends there, and whatever was done before stays done.
-/

namespace LexicalScope

/-! ## Faults -/

/-- Why a step was given up. -/
inductive Fault where
  /-- The value of a key was demanded, and no frame binds the key. -/
  | unbound
  deriving DecidableEq

/-- The sentence that explains a fault. -/
def Fault.message : Fault → String
  | .unbound => "no binding found for key"

/-! ## Requests about keys -/

/-- How a kind of chain answers requests of type `ι` about its keys, and what it displays as. -/
structure Dialect (ε ι ρ : Type) {κ : Type} [Entry ε κ] [BEq κ] where
  /-- Fulfils a request: the answer or why the step is given up, and the chain after it. -/
  fulfil : ι → Chain ε → Except Fault ρ × Chain ε
  /-- What the chain displays as. -/
  document : Chain ε → Document

variable {ε ι ρ κ : Type} [Entry ε κ] [BEq κ]

/--
The text that a chain displays as.  A frame with more than one entry has no order in
which to display them, so a chain with such a frame has no text.
-/
def Dialect.text? (dialect : Dialect ε ι ρ) (layout : Document.Layout) (c : Chain ε) :
    Option String :=
  if c.stack.toList.all fun frame => frame.size ≤ 1 then
    some ((dialect.document c).text layout)
  else
    none

end LexicalScope
