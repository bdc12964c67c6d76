import StackLowering.Assembly.Opcode

/-!
Which operation computes an operator on operands with given tags. Both operands have to carry the
same numeric tag; otherwise nothing is selected and a placeholder takes the place. Reals are
compared so that an unordered pair never satisfies an order: `fcmpg` before a test for less, `fcmpl`
before any other.
-/
namespace StackLowering

/-- How a comparison reaches its target: by one branch, or by a comparison and a branch on its
sign. -/
inductive Jump where
  | direct (branch : Opcode)
  | compared (compare branch : Opcode)
deriving DecidableEq, Repr

namespace Jump

def branch : Jump → Opcode
  | direct b => b
  | compared _ b => b

def isPlaceholder (j : Jump) : Bool := j.branch.isPlaceholder

end Jump

def Relation.floatCompare : Relation → Opcode
  | lt | le => .fcmpg
  | gt | ge | eq | ne => .fcmpl

def Relation.jump (rel : Relation) : Numeric → Jump
  | .int => .direct (.ifCompare rel)
  | .float => .compared rel.floatCompare (.ifZero rel)

namespace Operator

def arithmetic? : Operator → Tag → Tag → Option Opcode
  | arithmetic op, left, right => (Tag.commonNumeric? left right).map (.arith · op)
  | relation _, _, _ => none

def comparison? : Operator → Tag → Tag → Option Jump
  | arithmetic _, _, _ => none
  | relation rel, left, right => (Tag.commonNumeric? left right).map rel.jump

/-- The operation for an arithmetic node, or its placeholder. -/
def arithmeticOr (op : Operator) (left right : Tag) : Opcode :=
  (op.arithmetic? left right).getD .unresolved

/-- The jump for a condition, or its placeholder. -/
def comparisonOr (op : Operator) (left right : Tag) : Jump :=
  (op.comparison? left right).getD (.direct .unresolvedBranch)

end Operator

def Tag.negation? (t : Tag) : Option Opcode := t.numeric?.map .neg

/-- The operation for a negation, or its placeholder. -/
def Tag.negationOr (t : Tag) : Opcode := t.negation?.getD .unresolvedNeg

theorem Operator.isPlaceholder_arithmeticOr (op : Arithmetic) (left right : Tag) :
    ((Operator.arithmetic op).arithmeticOr left right).isPlaceholder =
      (Tag.commonNumeric? left right).isNone := by
  cases left <;> cases right <;> rfl

theorem Operator.isPlaceholder_comparisonOr (rel : Relation) (left right : Tag) :
    ((Operator.relation rel).comparisonOr left right).isPlaceholder =
      (Tag.commonNumeric? left right).isNone := by
  cases left <;> cases right <;> rfl

theorem Tag.isPlaceholder_negationOr (t : Tag) : t.negationOr.isPlaceholder = !t.isNumeric := by
  cases t <;> rfl

end StackLowering
