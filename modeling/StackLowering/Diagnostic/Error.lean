import StackLowering.Diagnostic.Defect

/-!
Everything that can keep a unit from being written: a defect of its tree, options that cannot be
read, or a file that cannot be made or filled.
-/
namespace StackLowering

inductive Error where
  | defect (d : Defect)
  | invalidOptions (message : String)
  | outputUnavailable (path message : String)
  | writeFailed (message : String)
deriving DecidableEq, Repr

namespace Error

/-- Only a defect has a place in the source. -/
def span : Error → Span
  | defect d => d.span
  | _ => .nowhere

/-- Whether the whole run is to end with this error. -/
def isFatal : Error → Bool
  | outputUnavailable _ _ => true
  | _ => false

def message : Error → String
  | defect d => d.message
  | invalidOptions m => "invalid code generation options: " ++ m
  | outputUnavailable path m => "cannot open assembly file " ++ path ++ ": " ++ m
  | writeFailed m => "failed to write assembly: " ++ m

end Error

end StackLowering
