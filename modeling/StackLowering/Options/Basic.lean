/-!
Options of lowering. They choose the superclass, the file extension, the limits that the main
method declares at least, and whether source lines are echoed as comments and directives.
-/
namespace StackLowering

structure Options where
  superClass : String := "java/lang/Object"
  extension : String := "j"
  stackLimit : UInt32 := 16
  localsLimit : UInt32 := 16
  sourceComments : Bool := true
  lineDirectives : Bool := false
deriving DecidableEq, Repr, Inhabited

/-- The same options with no echo of source lines. -/
def Options.withoutAnnotations (o : Options) : Options :=
  { o with sourceComments := false, lineDirectives := false }

end StackLowering
