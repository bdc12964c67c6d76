import StackLowering.Assembly.Descriptor

/-!
The classes, fields and methods outside the generated class that its code refers to.
-/
namespace StackLowering.Library

/-- A class of which the generated class keeps one instance in a static field. -/
structure Support where
  field : String
  className : String
deriving DecidableEq, Repr

def runTimer : Support := ⟨"_runTimer", "RunTimer"⟩

def textIn : Support := ⟨"_standardIn", "PascalTextIn"⟩

/-- The instances that a program makes before its body runs, in this order. -/
def supports : List Support := [runTimer, textIn]

def Support.descriptor (s : Support) : String := Descriptor.object s.className

def objectClass : String := "java/lang/Object"

def stringClass : String := "java/lang/String"

def printElapsedTime : String := "RunTimer.printElapsedTime()V"

def systemOut : String := "java/lang/System/out Ljava/io/PrintStream;"

def printf : String :=
  "java/io/PrintStream.printf(Ljava/lang/String;[Ljava/lang/Object;)Ljava/io/PrintStream;"

/-- Boxes a number into an object; what is not tagged as an integer is boxed as a float. -/
def boxing : Tag → String
  | .integer => "java/lang/Integer.valueOf(I)Ljava/lang/Integer;"
  | .real | .unknown => "java/lang/Float.valueOf(F)Ljava/lang/Float;"

def mainSignature : String := s!"main({Descriptor.array stringClass})V"

end StackLowering.Library
