import StackLowering.Output.Path

/-!
A volume of folders and files: the tree below a base folder, and what lies around it. Above the base
is the top folder, which does not hold the base under any name that a path could give. A file can be
made only in a folder that exists, under a name that is not too long and not a folder's; an existing
file is overwritten.
-/
namespace StackLowering

/-- The names that lead to a place from the base or from the top. -/
structure Location where
  inBase : Bool
  names : List String
deriving DecidableEq, Repr

namespace Location

/-- The place after one name. Two dots lead up, from the base to the top and from there nowhere. -/
def step (l : Location) (name : String) : Location :=
  if name == "" || name == "." then l
  else if name == ".." then
    if l.names.isEmpty then ⟨false, []⟩ else { l with names := l.names.dropLast }
  else { l with names := l.names ++ [name] }

end Location

/-- Where a path starts. -/
def Path.start (p : Path) : Location := ⟨p.base.isSome, []⟩

structure Volume where
  folders : List Location := []
  files : List (Location × String) := []
deriving Repr, Inhabited

namespace Volume

/-- Why a file cannot be made. -/
inductive Refusal where
  | unusablePath
  | noFolder
  | isFolder
  | longName
deriving DecidableEq, Repr

def Refusal.message : Refusal → String
  | unusablePath => "not a usable path"
  | noFolder => "no such folder"
  | isFolder => "is a folder"
  | longName => "file name too long"

/-- The base and the top are always there. -/
def hasFolder (v : Volume) (l : Location) : Bool := l.names.isEmpty || v.folders.contains l

def file? (v : Volume) (l : Location) : Option String := v.files.lookup l

/-- Names that lead to a folder and never name a file. -/
def isStep (name : String) : Bool := name == "" || name == "." || name == ".."

/-- Follow names through folders that exist. -/
def walk? (v : Volume) (l : Location) : List String → Option Location
  | [] => some l
  | n :: ns =>
    let next := l.step n
    if v.hasFolder next then v.walk? next ns else none

/-- Make the folders that names lead through, where they are missing. -/
def makeFoldersFrom (v : Volume) (l : Location) : List String → Volume
  | [] => v
  | n :: ns =>
    let next := l.step n
    let v := if v.hasFolder next then v else { v with folders := v.folders ++ [next] }
    v.makeFoldersFrom next ns

def makeFolders (v : Volume) (p : Path) : Volume := v.makeFoldersFrom p.start p.names

/-- Set the text of a file. -/
def put (v : Volume) (l : Location) (text : String) : Volume :=
  { v with files := (l, text) :: v.files.filter (·.1 ≠ l) }

/-- The folder in which the last name of a path stands. -/
def folderOf? (v : Volume) (p : Path) : Option Location := v.walk? p.start p.names.dropLast

/-- Make or overwrite the file at a path. -/
def create (v : Volume) (p : Path) (text : String) : Except Refusal Volume :=
  let name := p.names.getLast?.getD ""
  if !p.isUsable then .error .unusablePath
  else match v.folderOf? p with
    | none => .error .noFolder
    | some folder =>
      if isStep name || v.hasFolder (folder.step name) then .error .isFolder
      else if Path.maxNameBytes < name.utf8ByteSize then .error .longName
      else .ok (v.put (folder.step name) text)

/-- The text of the file at a path. -/
def read? (v : Volume) (p : Path) : Option String :=
  (v.folderOf? p).bind fun folder => v.file? (folder.step (p.names.getLast?.getD ""))

/-- The files in the base, ordered name by name, so that what a folder holds comes before anything
whose name only begins like the folder's. -/
def baseFiles (v : Volume) : List (List String) :=
  let inBase := v.files.filterMap fun f => if f.1.inBase then some f.1.names else none
  inBase.mergeSort fun a b => !decide (b < a)

example : ["d", "x"] < ["d-a"] ∧ ["d-a"] < ["d.j"] := by decide

end Volume

end StackLowering
