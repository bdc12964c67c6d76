import StackLowering.Assembly.Descriptor
import StackLowering.Assembly.Invocation
import StackLowering.Assembly.Listing

/-!
A listing under construction. What can be added to it is data, the type `Emission`; `emit` adds one
emission and keeps the depth of the operand stack and its peak since the method was opened. Depths
and label numbers have no bounds here; in a class whose text is shorter than `2 ^ 30` characters they
never leave 32 bits. Three emissions make no sense, and `fault?` names them: placing a label twice, a
branch by an operation that does not branch, and invoking a method whose reference has crossed
parentheses.
-/
namespace StackLowering

inductive Fault where
  | labelRedefined (l : Label)
  | notABranch (op : Opcode)
  | crossedMethod (method : String)
deriving DecidableEq, Repr

inductive Emission where
  | directive (text : String)
  | comment (text : String)
  | blank
  | setLine (n : UInt32)
  /-- Write the current source line as a directive. -/
  | lineDirective
  | instruction (op : Opcode) (operand : Option String)
  | invoke (op : Opcode) (method : String)
  | newLabel
  | label (l : Label)
  | branch (op : Opcode) (target : Label)
  | openMethod (header : String)
  | closeMethod (locals stack : UInt32)
deriving DecidableEq, Repr

namespace Emission

def plain (op : Opcode) : Emission := .instruction op none

def constant (text : String) : Emission := .instruction .ldc (some text)

def number (n : Nat) : Emission := constant (toString n)

/-- A string constant; nothing inside the quotes is escaped. -/
def string (text : String) : Emission := constant s!"\"{text}\""

def load (f : FieldRef) : Emission := .instruction .getStatic (some f.text)

def store (f : FieldRef) : Emission := .instruction .putStatic (some f.text)

def create (className : String) : Emission := .instruction .new (some className)

def jump (l : Label) : Emission := .branch .goto l

end Emission

/-- The directive that names a source line. -/
def lineDirectiveText (n : UInt32) : String := s!".line {n}"

structure Assembler where
  lines : Array Line := #[]
  labels : LabelSupply := {}
  depth : Int := 0
  peak : Nat := 0
  /-- The source line that the code being emitted belongs to. -/
  line : UInt32 := 0
deriving Repr, Inhabited

namespace Assembler

def listing (a : Assembler) : Listing := a.lines.toList

def push (a : Assembler) (l : Line) : Assembler := { a with lines := a.lines.push l }

/-- Change the depth and keep its peak. -/
def adjust (a : Assembler) (delta : Int) : Assembler :=
  { a with depth := a.depth + delta, peak := max a.peak (a.depth + delta).toNat }

/-- Start to count the depth anew. -/
def resetDepth (a : Assembler) : Assembler := { a with depth := 0, peak := 0 }

/-- Every invocation but a static one has a receiver. -/
def hasReceiver (op : Opcode) : Bool := op != .invokeStatic

/-- What is wrong with adding an emission, if anything. -/
def fault? (a : Assembler) : Emission → Option Fault
  | .invoke op method =>
    if (Invocation.effect? method (hasReceiver op)).isSome then none
    else some (.crossedMethod method)
  | .label l => if a.labels.isPlaced l then some (.labelRedefined l) else none
  | .branch op _ => if op.isBranch then none else some (.notABranch op)
  | _ => none

/-- Add an emission that is no fault. -/
def emit (a : Assembler) : Emission → Assembler
  | .directive text => a.push (.directive text)
  | .comment text => a.push (.comment text)
  | .blank => a.push .blank
  | .setLine n => { a with line := n }
  | .lineDirective => a.push (.directive (lineDirectiveText a.line))
  | .instruction op operand => (a.adjust op.effect).push (.instruction op operand)
  | .invoke op method =>
    (a.adjust ((Invocation.effect? method (hasReceiver op)).getD 0)).push
      (.instruction op (some method))
  | .newLabel => { a with labels := a.labels.allocate.2 }
  | .label l => { a with labels := a.labels.place l }.push (.label l)
  | .branch op target => (a.adjust op.effect).push (.branch op target)
  | .openMethod header =>
    (a.resetDepth.push (.directive s!".method {header}")).push .blank
  | .closeMethod locals stack =>
    let limit := max stack.toNat a.peak
    (((a.push .blank).push (.directive s!".limit locals {locals}")).push
      (.directive s!".limit stack {limit}")).push (.directive ".end method")

@[simp] theorem listing_push (a : Assembler) (l : Line) :
    (a.push l).listing = a.listing ++ [l] := by simp [listing, push]

@[simp] theorem listing_adjust (a : Assembler) (d : Int) : (a.adjust d).listing = a.listing := rfl

end Assembler

end StackLowering
