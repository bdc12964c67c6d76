import StackLowering.Text.Pieces

/-!
Paths as text with slashes between names. A path starts in a base folder, which is shown under a
name of its own, or at the top. The name of the base is only for showing: it says nothing about
where the base lies, so no path can lead into the base by spelling it.
-/
namespace StackLowering

structure Path where
  /-- How the base folder is shown, for a path that starts in it. -/
  base : Option String
  text : String
deriving DecidableEq, Repr

namespace Path

/-- The base folder itself. -/
def ofBase (shown : String) : Path := ⟨some shown, ""⟩

def shown (p : Path) : String := p.base.getD "" ++ p.text

/-- The names after the start, with empty ones where slashes meet or stand at an end. -/
def names (p : Path) : List String := (Text.pieces '/' p.text.toList).map String.ofList

def isAbsolute (text : String) : Bool := text.toList.head? == some '/'

/-- Go on from a folder; a text that starts with a slash starts at the top instead. -/
def join (p : Path) (text : String) : Path :=
  if isAbsolute text then ⟨none, text⟩
  else if p.shown.isEmpty || p.shown.toList.getLast? == some '/' then
    { p with text := p.text ++ text }
  else { p with text := p.text ++ "/" ++ text }

/-- No path is longer than this, in bytes. -/
def maxBytes : Nat := 4095

/-- No name is longer than this, in bytes. -/
def maxNameBytes : Nat := 255

/-- Whether a path can be looked up at all: it is not too long and has no null character. -/
def isUsable (p : Path) : Bool :=
  p.shown.utf8ByteSize ≤ maxBytes && !p.text.toList.contains '\x00'

example : ((ofBase "<b>").join "d/").join "x.j" = ⟨some "<b>", "/d/x.j"⟩ := by decide
example : ((ofBase "<b>").join "d").join "/x.j" = ⟨none, "/x.j"⟩ := by decide

end Path

end StackLowering
