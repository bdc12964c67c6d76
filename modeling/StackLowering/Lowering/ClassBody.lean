import StackLowering.Lowering.Stmt

/-!
Lowering of a whole program to one class: a header, a static field for each declaration, a
constructor that only calls that of the superclass, and a main method that makes the supporting
objects, runs the body and reports the time it took.
-/
namespace StackLowering

def fieldDirective (name descriptor : String) : String :=
  s!".field private static {name} {descriptor}"

namespace Scope

def header (scope : Scope) : Script Unit := do
  Script.emitAll [.directive s!".class public {scope.className}",
    .directive s!".super {scope.options.superClass}", .blank]
  Script.emitAll
    (Library.supports.map fun s => .directive (fieldDirective s.field s.descriptor))

/-- The field of one declaration. A repeated name gets a field too, and a warning. -/
def declareField (scope : Scope) (d : Declaration) : Script Scope := do
  Script.note s!"declaration {d.name} : {d.tag.name}"
  if scope.options.sourceComments then
    Script.emitAll [.blank, .comment s!"{d.name} : {d.tag.name}"]
  if (scope.declared? d.name).isSome then
    Script.warn (.duplicateDeclaration d.name d.span)
  let text ← descriptor d.name d.tag d.span
  Script.emit (.directive (fieldDirective d.name text))
  return scope.declare d

def declareFields (scope : Scope) : List Declaration → Script Scope
  | [] => return scope
  | d :: ds => do
    let scope ← scope.declareField d
    scope.declareFields ds

def constructor (scope : Scope) : Script Unit :=
  Script.emitAll [.blank, .openMethod "public <init>()V", .plain .aload0,
    .invoke .invokeNonVirtual (Descriptor.constructor scope.options.superClass), .plain .ret,
    .closeMethod 1 1]

/-- Code that makes a supporting object and keeps it in its field. -/
def makeSupport (scope : Scope) (s : Library.Support) : List Emission :=
  [.create s.className, .plain .dup,
    .invoke .invokeNonVirtual (Descriptor.constructor s.className),
    .store (scope.field s.field s.descriptor)]

def prologue (scope : Scope) : Script Unit := do
  Script.emitAll [.blank, .openMethod s!"public static {Library.mainSignature}"]
  Script.emitAll (Library.supports.flatMap scope.makeSupport)

def epilogue (scope : Scope) : Script Unit :=
  Script.emitAll [.blank,
    .load (scope.field Library.runTimer.field Library.runTimer.descriptor),
    .invoke .invokeVirtual Library.printElapsedTime, .blank, .plain .ret,
    .closeMethod scope.options.localsLimit scope.options.stackLimit]

end Scope

/-- The script that builds the class of a program. -/
def Program.lower (p : Program) (options : Options) : Script Unit := do
  Script.note s!"generating class {p.name}"
  let scope := Scope.ofProgram options p
  scope.header
  let scope ← scope.declareFields p.decls
  scope.constructor
  scope.prologue
  let _ ← lowerAll scope ⟨0, 0⟩ p.body
  scope.epilogue

end StackLowering
