/-!
Type tags of tree nodes. A node is tagged as an integer, as a real, or not at all; the two numeric
tags stand for the machine's two kinds of numbers.
-/
namespace StackLowering

/-- The kinds of numbers that the machine computes with. -/
inductive Numeric where
  | int
  | float
deriving DecidableEq, Repr

inductive Tag where
  | integer
  | real
  | unknown
deriving DecidableEq, Repr

namespace Tag

instance : Inhabited Tag := ⟨.unknown⟩

def name : Tag → String
  | integer => "integer"
  | real => "real"
  | unknown => "unknown"

def numeric? : Tag → Option Numeric
  | integer => some .int
  | real => some .float
  | unknown => none

def isNumeric (t : Tag) : Bool := t.numeric?.isSome

/-- The tag that two operands share, if it is a numeric one. -/
def common? (a b : Tag) : Option Tag :=
  if a = b ∧ a.isNumeric then some a else none

/-- The kind of number that two operands share. -/
def commonNumeric? (a b : Tag) : Option Numeric := (common? a b).bind numeric?

theorem commonNumeric?_eq_some_iff {a b : Tag} {n : Numeric} :
    commonNumeric? a b = some n ↔ a.numeric? = some n ∧ b.numeric? = some n := by
  cases a <;> cases b <;> cases n <;> decide

end Tag

end StackLowering
