import StackLowering.Source.Span
import StackLowering.Tree.Tag

/-!
Warnings: what was lowered although its tags or names do not fit together. Lowering goes on, with a
placeholder where no operation or descriptor exists.
-/
namespace StackLowering

inductive Warning where
  | unresolvedOperator (symbol : String) (left right : Tag) (span : Span)
  | unresolvedComparison (symbol : String) (left right : Tag) (span : Span)
  | unresolvedNegation (operand : Tag) (span : Span)
  | unknownDescriptor (name : String) (span : Span)
  | assignmentMismatch (name : String) (target value : Tag) (span : Span)
  | undeclaredVariable (name : String) (span : Span)
  | annotationMismatch (name : String) (declared annotated : Tag) (span : Span)
  | duplicateDeclaration (name : String) (span : Span)
  | unknownPrintArgument (index : Nat) (span : Span)
deriving DecidableEq, Repr

namespace Warning

def span : Warning → Span
  | unresolvedOperator _ _ _ s => s
  | unresolvedComparison _ _ _ s => s
  | unresolvedNegation _ s => s
  | unknownDescriptor _ s => s
  | assignmentMismatch _ _ _ s => s
  | undeclaredVariable _ s => s
  | annotationMismatch _ _ _ s => s
  | duplicateDeclaration _ s => s
  | unknownPrintArgument _ s => s

/-- What a warning says apart from where it arose. -/
def body : Warning → String
  | unresolvedOperator symbol left right _ =>
    "no instruction for '" ++ symbol ++ "' on " ++ left.name ++ " and " ++ right.name
  | unresolvedComparison symbol left right _ =>
    "cannot compare " ++ left.name ++ " with " ++ right.name ++ " using '" ++ symbol ++ "'"
  | unresolvedNegation operand _ => "cannot negate a value of type " ++ operand.name
  | unknownDescriptor name _ => "variable '" ++ name ++ "' has no storage descriptor"
  | assignmentMismatch name target value _ =>
    "cannot store " ++ value.name ++ " into '" ++ name ++ "' of type " ++ target.name
  | undeclaredVariable name _ => "variable '" ++ name ++ "' was never declared"
  | annotationMismatch name declared annotated _ =>
    "'" ++ name ++ "' is declared " ++ declared.name ++ " but annotated " ++ annotated.name
  | duplicateDeclaration name _ => "variable '" ++ name ++ "' is declared more than once"
  | unknownPrintArgument index _ => "print argument " ++ toString index ++ " has unknown type"

def message (w : Warning) : String := "at " ++ w.span.text ++ ": " ++ w.body

end Warning

end StackLowering
