import StackLowering.Assembly.Library
import StackLowering.Lowering.Script
import StackLowering.Options.Basic
import StackLowering.Tree.Basic

/-!
What the lowering of a statement knows about its program: the class, the source text, the options,
and the declared variables. Of several declarations of one name the first counts, and a declared
tag always wins over the tag of a reference, so that all loads and stores of a variable agree.
-/
namespace StackLowering

/-- How a variable is stored. -/
structure Storage where
  tag : Tag
  descriptor : String
deriving DecidableEq, Repr

structure Scope where
  className : String
  source : Option String
  options : Options
  symbols : List (String × Tag) := []
deriving Repr

namespace Scope

/-- The scope of a program before any of its declarations. -/
def ofProgram (options : Options) (p : Program) : Scope :=
  { className := p.name, source := p.source, options }

def declared? (s : Scope) (name : String) : Option Tag := s.symbols.lookup name

/-- Declare a variable. A repeated name changes nothing. -/
def declare (s : Scope) (d : Declaration) : Scope :=
  match s.declared? d.name with
  | some _ => s
  | none => { s with symbols := (d.name, d.tag) :: s.symbols }

def sourceLine? (s : Scope) (n : UInt32) : Option String :=
  s.source.bind (Source.line? · n.toNat)

/-- A static field of the class. -/
def field (s : Scope) (name descriptor : String) : FieldRef := ⟨s.className, name, descriptor⟩

/-- The descriptor for a variable with this tag, or the placeholder with a warning. -/
def descriptor (name : String) (tag : Tag) (span : Span) : Script String :=
  match Descriptor.ofTag? tag with
  | some d => return d
  | none => do
    Script.warn (.unknownDescriptor name span)
    return Descriptor.placeholder

/-- The tag that a reference is stored with: the declared one, or its own if there is none. -/
def tagOf (s : Scope) (v : Variable) : Script Tag :=
  match s.declared? v.name with
  | some declared => do
    if declared ≠ v.tag then Script.warn (.annotationMismatch v.name declared v.tag v.span)
    return declared
  | none => do
    Script.warn (.undeclaredVariable v.name v.span)
    return v.tag

def resolve (s : Scope) (v : Variable) : Script Storage := do
  let tag ← s.tagOf v
  let d ← descriptor v.name tag v.span
  return ⟨tag, d⟩

theorem declared?_declare (s : Scope) (d : Declaration) (name : String) :
    (s.declare d).declared? name =
      if name = d.name then some ((s.declared? d.name).getD d.tag) else s.declared? name := by
  unfold declare
  split
  case h_1 t h =>
    split
    · subst name; simp [h]
    · rfl
  case h_2 h =>
    by_cases hn : name = d.name
    · subst name
      rw [h]
      simp [declared?]
    · have hb : (name == d.name) = false := by simpa using hn
      simp [declared?, List.lookup_cons, hb, hn]

end Scope

end StackLowering
