import StackLowering.Source.Lines
import StackLowering.Source.Span
import StackLowering.Tree.Operator
import StackLowering.Tree.Tag

/-!
Programs as type-annotated trees. Every node has a span, and every expression a tag that an earlier
analysis gave to it; nothing here requires that the tags fit together.
-/
namespace StackLowering

structure Variable where
  name : String
  tag : Tag
  span : Span
deriving DecidableEq, Repr, Inhabited

inductive Expr where
  | literal (kind : Numeric) (text : String) (tag : Tag) (span : Span)
  | var (v : Variable)
  | binary (op : Operator) (left right : Expr) (tag : Tag) (span : Span)
  | negate (operand : Expr) (tag : Tag) (span : Span)
deriving DecidableEq, Repr

namespace Expr

def tag : Expr → Tag
  | literal _ _ t _ => t
  | var v => v.tag
  | binary _ _ _ t _ => t
  | negate _ t _ => t

def span : Expr → Span
  | literal _ _ _ s => s
  | var v => v.span
  | binary _ _ _ _ s => s
  | negate _ _ s => s

def isComparison : Expr → Bool
  | binary op _ _ _ _ => op.isComparison
  | _ => false

end Expr

/-- The bodies of a conditional or a loop stand where their statement stands, so they are plain
statement lists. A conditional without an alternative differs from one with an empty one. -/
inductive Stmt where
  | assign (target : Variable) (value : Expr) (span : Span)
  | block (body : List Stmt) (span : Span)
  | ifThen (cond : Expr) (body : List Stmt) (span : Span)
  | ifElse (cond : Expr) (body alternative : List Stmt) (span : Span)
  | loop (body : List Stmt) (cond : Expr) (span : Span)
  | print (format : String) (args : List Expr) (span : Span)
deriving Repr

def Stmt.span : Stmt → Span
  | assign _ _ s => s
  | block _ s => s
  | ifThen _ _ s => s
  | ifElse _ _ _ s => s
  | loop _ _ s => s
  | print _ _ s => s

structure Declaration where
  name : String
  tag : Tag
  span : Span
deriving DecidableEq, Repr, Inhabited

structure Program where
  name : String
  decls : List Declaration
  body : List Stmt
  bodySpan : Span := .nowhere
  source : Option String := none
  span : Span := ⟨1, 1, 0⟩
deriving Repr

/-- The trimmed text of a source line, if the program carries its source. -/
def Program.sourceLine? (p : Program) (n : UInt32) : Option String :=
  p.source.bind (Source.line? · n.toNat)

end StackLowering
