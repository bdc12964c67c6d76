import StackLowering.Lowering.Expr

/-!
Lowering of statements. A cursor carries what one statement hands to the next: the number of the
next label and the source line that was echoed last. A statement on a new line is preceded by the
echo of that line. A conditional jumps over its alternative to its body; a loop runs its body and
jumps back while its condition holds.
-/
namespace StackLowering

structure Cursor where
  /-- The number of the next label. -/
  label : Nat
  /-- The current source line. -/
  line : UInt32
deriving DecidableEq, Repr

def Assembler.cursor (a : Assembler) : Cursor := ⟨a.labels.next, a.line⟩

namespace Scope

/-- The echo of a source line, as the options ask for it. -/
def echo (scope : Scope) (n : UInt32) : List Emission :=
  let comment :=
    if scope.options.sourceComments then
      match scope.sourceLine? n with
      | some text => [.blank, .comment text]
      | none => []
    else []
  let directive := if scope.options.lineDirectives then [.lineDirective] else []
  comment ++ directive

/-- Move to the line of a statement and echo it; a statement without a known place, or on the
current line, changes nothing. -/
def annotate (scope : Scope) (cursor : Cursor) (span : Span) : Script Cursor :=
  if span.known ∧ span.line ≠ cursor.line then do
    Script.emit (.setLine span.line)
    Script.emitAll (scope.echo span.line)
    return { cursor with line := span.line }
  else return cursor

end Scope

/-- The text inside the single quotes of a format. -/
def formatText? (literal : String) : Option String :=
  match literal.toList with
  | '\'' :: rest => if rest.getLast? = some '\'' then some (String.ofList rest.dropLast) else none
  | _ => none

/-- Code that stores print arguments, boxed, into the array on top of the stack. -/
def lowerArguments (scope : Scope) : Nat → List Expr → Script Unit
  | _, [] => return ()
  | index, arg :: args => do
    Script.emitAll [.plain .dup, .number index]
    arg.lower scope
    if arg.tag = .unknown then Script.warn (.unknownPrintArgument index arg.span)
    Script.emitAll [.invoke .invokeStatic (Library.boxing arg.tag), .plain .aastore]
    lowerArguments scope (index + 1) args

def lowerPrint (scope : Scope) (format : String) (args : List Expr) (span : Span) :
    Script Unit := do
  Script.note s!"print at {span.text} with {args.length} argument(s)"
  match formatText? format with
  | none => Script.fail (.malformedFormat format span)
  | some text => do
    Script.emitAll [.instruction .getStatic (some Library.systemOut), .string text,
      .number args.length, .instruction .anewarray (some Library.objectClass)]
    lowerArguments scope 0 args
    Script.emitAll [.invoke .invokeVirtual Library.printf, .plain .pop]

def lowerAssign (scope : Scope) (target : Variable) (value : Expr) (span : Span) :
    Script Unit := do
  Script.note ("assignment to '" ++ target.name ++ "' at " ++ span.text)
  value.lower scope
  let storage ← scope.resolve target
  if value.tag ≠ storage.tag then
    Script.warn (.assignmentMismatch target.name storage.tag value.tag span)
  Script.emit (.store (scope.field target.name storage.descriptor))

mutual

/-- Code of a statement without the echo of its own line. -/
def Stmt.lowerBare (scope : Scope) (cursor : Cursor) : Stmt → Script Cursor
  | .assign target value span => do
    lowerAssign scope target value span
    return cursor
  | .block body _ => lowerAll scope cursor body
  | .ifThen cond body span => do
    Script.note s!"if at {span.text} (no else)"
    let onTrue : Label := ⟨cursor.label + 1⟩
    let join : Label := ⟨cursor.label + 2⟩
    Script.emitAll [.newLabel, .newLabel, .newLabel, .label ⟨cursor.label⟩]
    cond.lowerCondition scope onTrue
    Script.emitAll [.jump join, .label onTrue]
    let cursor ← lowerAll scope { cursor with label := cursor.label + 3 } body
    Script.emit (.label join)
    return cursor
  | .ifElse cond body alternative span => do
    Script.note s!"if at {span.text} (with else)"
    let onTrue : Label := ⟨cursor.label + 1⟩
    let join : Label := ⟨cursor.label + 2⟩
    Script.emitAll [.newLabel, .newLabel, .newLabel, .label ⟨cursor.label⟩]
    cond.lowerCondition scope onTrue
    let cursor ← lowerAll scope { cursor with label := cursor.label + 3 } alternative
    Script.emitAll [.jump join, .label onTrue]
    let cursor ← lowerAll scope cursor body
    Script.emitAll [.jump join, .label join]
    return cursor
  | .loop body cond span => do
    Script.note s!"loop at {span.text}"
    let top : Label := ⟨cursor.label⟩
    Script.emitAll [.newLabel, .label top]
    let cursor ← lowerAll scope { cursor with label := cursor.label + 1 } body
    cond.lowerCondition scope top
    return cursor
  | .print format args span => do
    lowerPrint scope format args span
    return cursor

/-- Code of statements one after another, each after the echo of its line. -/
def lowerAll (scope : Scope) (cursor : Cursor) : List Stmt → Script Cursor
  | [] => return cursor
  | s :: ss => do
    let cursor ← scope.annotate cursor s.span
    let cursor ← s.lowerBare scope cursor
    lowerAll scope cursor ss

end

/-- Code of a statement after the echo of its line. -/
def Stmt.lower (scope : Scope) (cursor : Cursor) (s : Stmt) : Script Cursor := do
  let cursor ← scope.annotate cursor s.span
  s.lowerBare scope cursor

end StackLowering
