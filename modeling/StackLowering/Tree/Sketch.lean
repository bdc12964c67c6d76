import StackLowering.Tree.Basic

/-!
Sketches of trees. A sketch has no spans: it carries marks that move one current position, and a
node takes the position that holds when it is made. Nodes are made after their parts, so a mark
inside a part also moves what follows it. Placing a sketch is partial only because joining two
spans is.
-/
namespace StackLowering.Sketch

/-- Moves of the current position before the parts of a node are placed, and after them but before
the node itself is made. -/
structure Marks where
  enter : Option Position := none
  leave : Option Position := none
deriving DecidableEq, Repr, Inhabited

inductive Expr where
  | literal (marks : Marks) (kind : Numeric) (text : String) (tag : Tag)
  | var (marks : Marks) (name : String) (tag : Tag)
  | binary (marks : Marks) (op : Operator) (left right : Expr) (tag : Tag)
  | negate (marks : Marks) (operand : Expr) (tag : Tag)
deriving DecidableEq, Repr

inductive Stmt where
  | assign (marks : Marks) (name : String) (tag : Tag) (value : Expr)
  | block (marks : Marks) (body : List Stmt)
  | ifThen (marks : Marks) (cond : Expr) (body : List Stmt)
  | ifElse (marks : Marks) (cond : Expr) (body alternative : List Stmt)
  | loop (marks : Marks) (body : List Stmt) (cond : Expr)
  | print (marks : Marks) (format : String) (args : List Expr)
deriving Repr

structure Declaration where
  enter : Option Position := none
  name : String
  tag : Tag
deriving DecidableEq, Repr

structure Program where
  marks : Marks := {}
  name : String
  decls : List Declaration
  body : List Stmt
  source : Option String := none
deriving Repr

/-- A computation that moves the current position, and fails when spans cannot be joined. -/
abbrev Placing := StateT Position Option

/-- Move the current position, if there is a mark. -/
def move (mark : Option Position) : Placing Unit :=
  match mark with
  | some p => set p
  | none => pure ()

/-- The empty span at the current position. -/
def here : Placing Span := do
  return Span.ofPosition (← get)

/-- A binary node reaches from its left operand to its right one; if nothing is known of the left
operand's place, it takes the current position. -/
def spanBetween (left right : Span) : Placing Span :=
  if left.known then StateT.lift (left.join? right) else here

def Expr.place : Expr → Placing StackLowering.Expr
  | .literal marks kind text tag => do
    move marks.enter
    move marks.leave
    return .literal kind text tag (← here)
  | .var marks name tag => do
    move marks.enter
    move marks.leave
    return .var ⟨name, tag, ← here⟩
  | .binary marks op left right tag => do
    move marks.enter
    let l ← left.place
    let r ← right.place
    move marks.leave
    return .binary op l r tag (← spanBetween l.span r.span)
  | .negate marks operand tag => do
    move marks.enter
    let e ← operand.place
    move marks.leave
    return .negate e tag (← here)

mutual

def Stmt.place : Stmt → Placing StackLowering.Stmt
  | .assign marks name tag value => do
    move marks.enter
    let v ← value.place
    move marks.leave
    let span ← here
    return .assign ⟨name, tag, span⟩ v span
  | .block marks body => do
    move marks.enter
    let b ← placeAll body
    move marks.leave
    return .block b (← here)
  | .ifThen marks cond body => do
    move marks.enter
    let c ← cond.place
    let b ← placeAll body
    move marks.leave
    return .ifThen c b (← here)
  | .ifElse marks cond body alternative => do
    move marks.enter
    let c ← cond.place
    let b ← placeAll body
    let a ← placeAll alternative
    move marks.leave
    return .ifElse c b a (← here)
  | .loop marks body cond => do
    move marks.enter
    let b ← placeAll body
    let c ← cond.place
    move marks.leave
    return .loop b c (← here)
  | .print marks format args => do
    move marks.enter
    let as ← args.mapM Expr.place
    move marks.leave
    return .print format as (← here)

def placeAll : List Stmt → Placing (List StackLowering.Stmt)
  | [] => return []
  | s :: ss => do
    let t ← s.place
    let ts ← placeAll ss
    return t :: ts

end

def Declaration.place (d : Declaration) : Placing StackLowering.Declaration := do
  move d.enter
  return ⟨d.name, d.tag, ← here⟩

def Program.place (p : Program) : Placing StackLowering.Program := do
  move p.marks.enter
  let decls ← p.decls.mapM Declaration.place
  let body ← placeAll p.body
  move p.marks.leave
  let bodySpan ← here
  return { name := p.name, decls, body, bodySpan, source := p.source }

end StackLowering.Sketch
