import StackLowering.Lowering.Scope
import StackLowering.Lowering.Selection

/-!
Lowering of expressions. A value is lowered to code that leaves it on the stack, operands first and
left before right; a condition to code that jumps when it holds. A comparison has no value, and only
a comparison is a condition.
-/
namespace StackLowering

def Jump.emissions (j : Jump) (target : Label) : List Emission :=
  match j with
  | .direct branch => [.branch branch target]
  | .compared compare branch => [.plain compare, .branch branch target]

namespace Expr

/-- Code that pushes the value of an expression. -/
def lower (scope : Scope) : Expr → Script Unit
  | literal _ text _ _ => Script.emit (.constant text)
  | var v => do
    let storage ← scope.resolve v
    Script.emit (.load (scope.field v.name storage.descriptor))
  | binary (.relation rel) _ _ _ span => Script.fail (.comparisonOutsideCondition rel.symbol span)
  | binary (.arithmetic op) left right _ span => do
    left.lower scope
    right.lower scope
    let opcode := (Operator.arithmetic op).arithmeticOr left.tag right.tag
    if opcode.isPlaceholder then
      Script.warn (.unresolvedOperator op.symbol left.tag right.tag span)
    Script.emit (.plain opcode)
  | negate operand _ span => do
    operand.lower scope
    let opcode := operand.tag.negationOr
    if opcode.isPlaceholder then Script.warn (.unresolvedNegation operand.tag span)
    Script.emit (.plain opcode)

/-- Code that jumps to a label when a condition holds and falls through when it does not. -/
def lowerCondition (scope : Scope) (target : Label) : Expr → Script Unit
  | binary (.relation rel) left right _ span => do
    left.lower scope
    right.lower scope
    let jump := (Operator.relation rel).comparisonOr left.tag right.tag
    if jump.isPlaceholder then
      Script.warn (.unresolvedComparison rel.symbol left.tag right.tag span)
    Script.emitAll (jump.emissions target)
  | e => Script.fail (.nonRelationalCondition e.span)

end Expr

end StackLowering
