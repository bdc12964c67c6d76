import StackLowering.Proofs.Kinds

/-!
The lines that make and use fields, and the lines before the main method: there is one for each
field, first for the fields of the supporting objects and then for each declaration.
-/
namespace StackLowering

namespace Line

/-- Whether a line makes a field. -/
def isField : Line → Bool
  | directive text => ".field ".toList.isPrefixOf text.toList
  | _ => false

/-- The descriptor of the field that a line makes, loads or stores. -/
def descriptor? : Line → Option String
  | directive text => if isField (directive text) then some (Kind.fieldDescriptor text) else none
  | instruction .getStatic (some field) => some (Kind.fieldDescriptor field)
  | instruction .putStatic (some field) => some (Kind.fieldDescriptor field)
  | _ => none

theorem isField_fieldDirective (name descriptor : String) :
    (directive (fieldDirective name descriptor)).isField = true := by
  rw [fieldDirective_eq, isField, String.toList_append]
  exact List.isPrefixOf_iff_prefix.mpr
    ((by decide : ".field ".toList <+: ".field private static ".toList).trans
      (List.prefix_append _ _))

/-- A directive with another beginning makes no field. -/
theorem isField_append {front rest : String} (hl : 1 < front.toList.length)
    (h : front.toList[1]? ≠ some 'f') : (directive (front ++ rest)).isField = false := by
  rw [isField, Bool.eq_false_iff, Ne, List.isPrefixOf_iff_prefix, String.toList_append]
  rintro ⟨back, hback⟩
  apply h
  rw [← List.getElem?_append_left hl, ← hback]
  rfl

end Line

theorem Descriptor.blank_notMem (tag : Tag) :
    ' ' ∉ ((Descriptor.ofTag? tag).getD Descriptor.placeholder).toList := by cases tag <;> decide

theorem Library.blank_notMem {s : Library.Support} (h : s ∈ Library.supports) :
    ' ' ∉ s.descriptor.toList := by
  revert s
  decide

/-- No variable has the descriptor of a supporting object. -/
theorem Library.descriptor_ne {s : Library.Support} (h : s ∈ Library.supports) (tag : Tag) :
    s.descriptor ≠ (Descriptor.ofTag? tag).getD Descriptor.placeholder := by
  revert s
  cases tag <;> decide

namespace Declaration

/-- The descriptor of a declaration's field. -/
def descriptor (d : Declaration) : String := (Descriptor.ofTag? d.tag).getD Descriptor.placeholder

def fieldLine (d : Declaration) : Line := .directive (fieldDirective d.name d.descriptor)

/-- The lines of a declaration. -/
def lines (options : Options) (d : Declaration) : List Line :=
  (if options.sourceComments then [.blank, .comment s!"{d.name} : {d.tag.name}"] else []) ++
    [d.fieldLine]

end Declaration

def Library.Support.fieldLine (s : Library.Support) : Line :=
  .directive (fieldDirective s.field s.descriptor)

theorem Assembler.writtenAll_declarations (a : Assembler) (options : Options)
    (ds : List Declaration) :
    a.writtenAll (ds.flatMap (·.emissions options)) = ds.flatMap (·.lines options) := by
  induction ds generalizing a with
  | nil => rfl
  | cons d ds ih =>
    rw [List.flatMap_cons, List.flatMap_cons, writtenAll_append, ih, Declaration.emissions,
      Declaration.lines]
    cases options.sourceComments <;> rfl

namespace Program

/-- The lines that make the fields of a class. -/
def fieldLines (p : Program) : List Line :=
  Library.supports.map Library.Support.fieldLine ++ p.decls.map Declaration.fieldLine

theorem mem_fieldLines {p : Program} {line : Line} :
    line ∈ p.fieldLines ↔
      (∃ s ∈ Library.supports, s.fieldLine = line) ∨ ∃ d ∈ p.decls, d.fieldLine = line := by
  simp [fieldLines]

/-- The first lines of a class. -/
def header (p : Program) (options : Options) : List Line :=
  [.directive s!".class public {p.name}", .directive s!".super {options.superClass}", .blank]

/-- The lines of the constructor. -/
def constructorLines (options : Options) (limit : Nat) : List Line :=
  [.blank, .directive ".method public <init>()V", .blank, .instruction .aload0 none,
    .instruction .invokeNonVirtual (some (Descriptor.constructor options.superClass)),
    .instruction .ret none, .blank, .directive ".limit locals 1",
    .directive s!".limit stack {limit}", .directive ".end method", .blank]

theorem isField_mainLine : mainLine.isField = false := by decide

/-- The emissions of a constructor up to its closing. -/
def constructorEmissions (options : Options) : List Emission :=
  [.blank, .openMethod "public <init>()V", .plain .aload0,
    .invoke .invokeNonVirtual (Descriptor.constructor options.superClass), .plain .ret]

/-- A constructor never has more than its receiver on the stack, whatever parameters the name of
the superclass seems to have. -/
theorem peak_constructorEmissions (a : Assembler) (options : Options) :
    (a.emitAll (constructorEmissions options)).peak = 1 := by
  obtain ⟨slots, he⟩ := Invocation.effect?_constructor options.superClass true
  change max (max 1 (1 + (Invocation.effect? _ true).getD 0).toNat)
    (1 + (Invocation.effect? _ true).getD 0 + 0).toNat = 1
  rw [he, Option.getD_some, if_pos rfl]
  omega

theorem writtenAll_constructor (a : Assembler) (options : Options) :
    a.writtenAll (constructorEmissions options ++ [.closeMethod 1 1, .blank]) =
      constructorLines options 1 := by
  rw [Assembler.writtenAll_append, Assembler.writtenAll_cons, Assembler.written,
    peak_constructorEmissions]
  rfl

/-- The lines before the main method, and its header. -/
theorem opening_eq (p : Program) (options : Options) :
    p.opening options = p.header options ++ Library.supports.map Library.Support.fieldLine ++
      p.decls.flatMap (·.lines options) ++ constructorLines options 1 ++ [mainLine] := by
  rw [opening, preamble, Assembler.writtenAll_append, Assembler.writtenAll_append,
    Assembler.writtenAll_append, Assembler.writtenAll_declarations]
  exact congrArg (_ ++ · ++ [mainLine]) (writtenAll_constructor _ options)

theorem mem_opening_of_mem_fieldLines {p : Program} (options : Options) {line : Line}
    (h : line ∈ p.fieldLines) : line ∈ p.opening options := by
  rw [p.opening_eq options]
  rcases mem_fieldLines.mp h with ⟨s, hs, rfl⟩ | ⟨d, hd, rfl⟩
  · simp [List.mem_map_of_mem hs]
  · have hlines : d.fieldLine ∈ p.decls.flatMap (·.lines options) :=
      List.mem_flatMap.mpr ⟨d, hd, by simp [Declaration.lines]⟩
    simp [hlines]

end Program

end StackLowering
