import StackLowering.Diagnostic.Error
import StackLowering.Output.Volume
import StackLowering.Workbench

/-!
Writing the class unit of a program into a folder. The unit is made first, so a defect of the tree
comes before anything about the file and leaves the volume as it was. A file that cannot be made is
the one error that may end the whole run.
-/
namespace StackLowering

/-- The status with which a run ends when the assembly file cannot be made. -/
def unavailableStatus : Int := -99

/-- What is left after a unit was to be written: the path of its file, or why there is none. -/
structure Writing where
  volume : Volume
  journal : Journal
  result : Except (Stop Error) Path

namespace Program

def write (p : Program) (options : Options) (volume : Volume) (folder : Path) : Writing :=
  match p.assemble options with
  | (journal, .error stop) => ⟨volume, journal, .error (stop.map .defect)⟩
  | (journal, .ok unit) =>
    let path := folder.join unit.fileName
    match volume.create path unit.text with
    | .error refusal =>
      ⟨volume, journal, .error (.error (.outputUnavailable path.shown refusal.message))⟩
    | .ok volume =>
      let lines := unit.listing.length
      let warnings := unit.warnings.length
      let note := s!"wrote {path.shown} ({lines} lines, {warnings} warning(s))"
      ⟨volume, journal ++ [.note .info note], .ok path⟩

end Program

/-- How a run that writes one unit comes to an end. -/
inductive Ending where
  | returned (result : Except (Stop Error) Path)
  | exited (status : Int)

namespace Writing

/-- A fatal error is noted and ends the run, and anything else is returned. -/
def finish (w : Writing) : Journal × Ending :=
  match w.result with
  | .error (.error e) =>
    if e.isFatal then
      (w.journal ++ [.note .error ("Cannot open assembly file: " ++ e.message)],
        .exited unavailableStatus)
    else (w.journal, .returned w.result)
  | _ => (w.journal, .returned w.result)

def ending (w : Writing) : Ending := w.finish.2

end Writing

/-- The status that the surroundings see: one byte, zero for a unit that was written. -/
def Ending.status : Ending → Nat
  | returned (.ok _) => 0
  | returned (.error _) => 1
  | exited s => (s % 256).toNat

example : (Ending.exited unavailableStatus).status = 157 := by decide

end StackLowering
