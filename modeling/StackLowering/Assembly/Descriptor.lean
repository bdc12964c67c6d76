import StackLowering.Tree.Tag

/-!
Descriptors of fields and the names by which assembly refers to fields and constructors.
-/
namespace StackLowering

namespace Descriptor

/-- The descriptor of a static field that holds a value with this tag. -/
def ofTag? : Tag → Option String
  | .integer => some "I"
  | .real => some "F"
  | .unknown => none

/-- What is written where a tag has no descriptor. -/
def placeholder : String := "?"

def object (className : String) : String := s!"L{className};"

def array (className : String) : String := s!"[L{className};"

/-- The constructor of a class without parameters. -/
def constructor (className : String) : String := s!"{className}/<init>()V"

end Descriptor

/-- A static field with its owner and its descriptor. -/
structure FieldRef where
  owner : String
  name : String
  descriptor : String
deriving DecidableEq, Repr, Inhabited

def FieldRef.text (f : FieldRef) : String := s!"{f.owner}/{f.name} {f.descriptor}"

end StackLowering
