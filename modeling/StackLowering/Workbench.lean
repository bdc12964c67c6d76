import StackLowering.Journal
import StackLowering.Lowering.ClassBody

/-!
Running scripts. A workbench holds a listing under construction, the warnings so far and the
journal; `run` performs commands in order up to the first that is a fault. The class unit of a
program is what its script leaves on an empty workbench.
-/
namespace StackLowering

structure Workbench where
  assembler : Assembler := {}
  warnings : Array Warning := #[]
  journal : Array Message := #[]
deriving Repr, Inhabited

/-- Why work did not come to its end: an error that it foresees, or a fault. -/
inductive Stop (ε : Type) where
  | error (e : ε)
  | fault (f : Fault)
deriving DecidableEq, Repr

def Stop.map {ε δ : Type} (f : ε → δ) : Stop ε → Stop δ
  | error e => .error (f e)
  | fault x => .fault x

namespace Workbench

def fault? (w : Workbench) : Command → Option Fault
  | .emit e => w.assembler.fault? e
  | _ => none

/-- Perform a command that is no fault. -/
def perform : Workbench → Command → Workbench
  | ⟨assembler, warnings, journal⟩, .emit e =>
    let before := assembler.lines.size
    let after := assembler.emit e
    let added := after.lines.extract before after.lines.size
    ⟨after, warnings, journal ++ added.map .emitted⟩
  | ⟨assembler, warnings, journal⟩, .warn x =>
    ⟨assembler, warnings.push x, journal.push (.warned x)⟩
  | ⟨assembler, warnings, journal⟩, .note text =>
    ⟨assembler, warnings, journal.push (.note .debug text)⟩

/-- Perform commands up to the first fault. -/
def run (w : Workbench) : List Command → Workbench × Option Fault
  | [] => (w, none)
  | c :: cs =>
    match w.fault? c with
    | some f => (w, some f)
    | none => (w.perform c).run cs

/-- Run the commands of a script; a fault comes before the script's own result. -/
def play {α : Type} (w : Workbench) (s : Script α) : Workbench × Except (Stop Defect) α :=
  match w.run s.commands with
  | (w, some f) => (w, .error (.fault f))
  | (w, none) => (w, s.result.mapError .error)

theorem run_append (w : Workbench) (cs ds : List Command) :
    w.run (cs ++ ds) =
      match w.run cs with
      | (v, some f) => (v, some f)
      | (v, none) => v.run ds := by
  induction cs generalizing w with
  | nil => rfl
  | cons c cs ih =>
    simp only [List.cons_append, run]
    cases h : w.fault? c with
    | some f => rfl
    | none => exact ih _

/-- Without a fault, running is performing one command after another. -/
theorem run_eq_foldl {w : Workbench} {cs : List Command} (h : (w.run cs).2 = none) :
    (w.run cs).1 = cs.foldl perform w := by
  induction cs generalizing w with
  | nil => rfl
  | cons c cs ih =>
    simp only [run] at h ⊢
    cases hf : w.fault? c with
    | some f => simp [hf] at h
    | none => simp only [hf] at h ⊢; exact ih h

end Workbench

/-- The assembly of one program. -/
structure ClassUnit where
  className : String
  fileName : String
  listing : Listing
  warnings : List Warning
deriving Repr

namespace ClassUnit

def text (u : ClassUnit) : String := u.listing.render

/-- Whether everything found an operation and a descriptor that fit. -/
def isClean (u : ClassUnit) : Bool := u.warnings.isEmpty

end ClassUnit

namespace Program

def fileName (p : Program) (options : Options) : String := p.name ++ "." ++ options.extension

/-- The class unit of a program, or why there is none, with the journal of the work. -/
def assemble (p : Program) (options : Options) : Journal × Except (Stop Defect) ClassUnit :=
  match Workbench.play {} (p.lower options) with
  | (w, .error stop) => (w.journal.toList, .error stop)
  | (w, .ok ()) =>
    let unit : ClassUnit :=
      { className := p.name, fileName := p.fileName options, listing := w.assembler.listing,
        warnings := w.warnings.toList }
    let summary := s!"class {p.name}: {w.assembler.lines.size} lines, {w.warnings.size} warning(s)"
    ((w.journal.push (.note .debug summary)).toList, .ok unit)

/-- The class unit of a program, or why there is none. -/
def unit (p : Program) (options : Options) : Except (Stop Defect) ClassUnit :=
  (p.assemble options).2

end Program

end StackLowering
