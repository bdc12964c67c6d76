import StackLowering.Assembly.Label
import StackLowering.Assembly.Opcode

/-!
Assembly listings. A line is kept as what it means and turned into text only at the end; a listing
is a list of lines. `violations` names the labels that make a listing unfit for assembly: those
defined more than once, and those that a branch needs and no line defines.
-/
namespace StackLowering

inductive Line where
  | directive (text : String)
  | comment (text : String)
  | blank
  | label (l : Label)
  | instruction (op : Opcode) (operand : Option String)
  | branch (op : Opcode) (target : Label)
deriving DecidableEq, Repr

namespace Line

def text : Line → String
  | directive t => t
  | comment t => "; " ++ t
  | blank => ""
  | label l => l.text ++ ":"
  | instruction op none => "\t" ++ op.mnemonic
  | instruction op (some operand) => "\t" ++ op.mnemonic ++ op.separator ++ operand
  | branch op target => "\t" ++ op.mnemonic ++ op.separator ++ target.text

def opcode? : Line → Option Opcode
  | instruction op _ => some op
  | branch op _ => some op
  | _ => none

/-- The label that a line defines. -/
def defined? : Line → Option Label
  | label l => some l
  | _ => none

/-- The label that a line jumps to. -/
def target? : Line → Option Label
  | branch _ l => some l
  | _ => none

end Line

abbrev Listing := List Line

/-- Labels, each once, with the number of their definitions. -/
abbrev Tally := List (Label × Nat)

namespace Tally

def hasLabel (t : Tally) (l : Label) : Bool := t.any fun e => e.1 = l

/-- Count one more definition of a label. -/
def increment (l : Label) : Tally → Tally
  | [] => [(l, 1)]
  | (m, n) :: t => if m = l then (m, n + 1) :: t else (m, n) :: increment l t

end Tally

namespace Listing

/-- The text of a listing: every line is ended by a line feed. -/
def render (ls : Listing) : String := String.join (ls.map fun l => l.text ++ "\n")

def opcodes (ls : Listing) : List Opcode := ls.filterMap Line.opcode?

def count (ls : Listing) (op : Opcode) : Nat := (opcodes ls).count op

def definedLabels (ls : Listing) : List Label := ls.filterMap Line.defined?

def referencedLabels (ls : Listing) : List Label := ls.filterMap Line.target?

/-- How often the lines of a listing define each label, for the labels that any line defines. -/
def tally (ls : Listing) : Tally :=
  ls.foldl (fun t line => match line.defined? with
    | some l => t.increment l
    | none => t) []

/-- The set of the labels that were counted more than once. -/
def repeated (definitions : Tally) : List Label :=
  definitions.foldl (fun bad e => if 1 < e.2 then bad.insert e.1 else bad) []

/-- A set of labels with the targets put into it that were not counted. -/
def addUndefined (definitions : Tally) (bad targets : List Label) : List Label :=
  targets.foldl (fun bad l => if !definitions.hasLabel l then bad.insert l else bad) bad

/-- The violated labels by ascending number. -/
def violations (ls : Listing) : List Label :=
  let definitions := tally ls
  let bad := addUndefined definitions (repeated definitions) (referencedLabels ls)
  bad.mergeSort (·.id ≤ ·.id)

@[simp] theorem definedLabels_cons (line : Line) (ls : Listing) :
    definedLabels (line :: ls) = line.defined?.toList ++ definedLabels ls := by
  cases h : line.defined? <;> simp [definedLabels, h]

@[simp] theorem referencedLabels_cons (line : Line) (ls : Listing) :
    referencedLabels (line :: ls) = line.target?.toList ++ referencedLabels ls := by
  cases h : line.target? <;> simp [referencedLabels, h]

@[simp] theorem definedLabels_append (a b : Listing) :
    definedLabels (a ++ b) = definedLabels a ++ definedLabels b := List.filterMap_append

@[simp] theorem referencedLabels_append (a b : Listing) :
    referencedLabels (a ++ b) = referencedLabels a ++ referencedLabels b := List.filterMap_append

@[simp] theorem opcodes_append (a b : Listing) : opcodes (a ++ b) = opcodes a ++ opcodes b :=
  List.filterMap_append

example : violations [.label ⟨2⟩, .branch .goto ⟨5⟩, .label ⟨2⟩, .branch .goto ⟨1⟩] =
    [⟨1⟩, ⟨2⟩, ⟨5⟩] := by cbv

end Listing

end StackLowering
