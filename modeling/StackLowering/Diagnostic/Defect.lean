import StackLowering.Source.Span

/-!
Defects of a tree: what makes it impossible to lower. Each stands at one node and says so.
-/
namespace StackLowering

inductive Defect where
  /-- A comparison where a value is needed. -/
  | comparisonOutsideCondition (symbol : String) (span : Span)
  /-- A condition that does not compare. -/
  | nonRelationalCondition (span : Span)
  /-- A format that is not enclosed in single quotes. -/
  | malformedFormat (literal : String) (span : Span)
deriving DecidableEq, Repr

namespace Defect

def span : Defect → Span
  | comparisonOutsideCondition _ s => s
  | nonRelationalCondition s => s
  | malformedFormat _ s => s

def message : Defect → String
  | comparisonOutsideCondition symbol s =>
    s!"at {s.text}: comparison '" ++ symbol ++ "' used outside of a condition"
  | nonRelationalCondition s => s!"at {s.text}: condition is not a comparison"
  | malformedFormat literal s => s!"at {s.text}: malformed format literal {literal}"

end Defect

end StackLowering
