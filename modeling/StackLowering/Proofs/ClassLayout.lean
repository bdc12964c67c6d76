import StackLowering.Proofs.Code

/-!
The layout of a class. The listing of a unit is a preamble (header, fields, constructor), the header
of the main method, the main method's code and its closing directives. The main method's code is
the code that makes the supporting objects, the code of the program's body, and the code that
reports the time. No line before the main method is a label or a branch.
-/
namespace StackLowering

namespace Scope

@[simp] theorem className_ofProgram (options : Options) (p : Program) :
    (ofProgram options p).className = p.name := rfl

@[simp] theorem options_ofProgram (options : Options) (p : Program) :
    (ofProgram options p).options = options := rfl

@[simp] theorem options_declare (s : Scope) (d : Declaration) :
    (s.declare d).options = s.options := by unfold declare; split <;> rfl

@[simp] theorem className_declare (s : Scope) (d : Declaration) :
    (s.declare d).className = s.className := by unfold declare; split <;> rfl

@[simp] theorem source_declare (s : Scope) (d : Declaration) :
    (s.declare d).source = s.source := by unfold declare; split <;> rfl

/-- The scope after declarations. -/
def declareAll (s : Scope) (ds : List Declaration) : Scope := ds.foldl declare s

@[simp] theorem options_declareAll (s : Scope) (ds : List Declaration) :
    (s.declareAll ds).options = s.options := by
  induction ds generalizing s with
  | nil => rfl
  | cons d ds ih => exact (ih (s.declare d)).trans (s.options_declare d)

@[simp] theorem className_declareAll (s : Scope) (ds : List Declaration) :
    (s.declareAll ds).className = s.className := by
  induction ds generalizing s with
  | nil => rfl
  | cons d ds ih => exact (ih (s.declare d)).trans (s.className_declare d)

@[simp] theorem source_declareAll (s : Scope) (ds : List Declaration) :
    (s.declareAll ds).source = s.source := by
  induction ds generalizing s with
  | nil => rfl
  | cons d ds ih => exact (ih (s.declare d)).trans (s.source_declare d)

end Scope

/-- The emissions for one declaration. -/
def Declaration.emissions (d : Declaration) (options : Options) : List Emission :=
  (if options.sourceComments then [.blank, .comment s!"{d.name} : {d.tag.name}"] else []) ++
    [.directive (fieldDirective d.name
      ((Descriptor.ofTag? d.tag).getD Descriptor.placeholder))]

/-- The warnings of declarations: a name that is declared already, and a tag without a
descriptor. -/
def declarationWarnings (scope : Scope) : List Declaration → List Warning
  | [] => []
  | d :: ds =>
    (if (scope.declared? d.name).isSome then [.duplicateDeclaration d.name d.span] else []) ++
      descriptorWarnings d.name d.tag d.span ++ declarationWarnings (scope.declare d) ds

namespace Scope

/-- The commands for one declaration. -/
def fieldCommands (s : Scope) (d : Declaration) : List Command :=
  .note s!"declaration {d.name} : {d.tag.name}" ::
    ((if s.options.sourceComments then
        [.emit .blank, .emit (.comment s!"{d.name} : {d.tag.name}")] else []) ++
      (if (s.declared? d.name).isSome then
        [.warn (.duplicateDeclaration d.name d.span)] else []) ++
      (descriptorWarnings d.name d.tag d.span).map .warn ++
      [.emit (.directive (fieldDirective d.name
        ((Descriptor.ofTag? d.tag).getD Descriptor.placeholder)))])

/-- The commands for declarations, each in the scope of those before it. -/
def fieldsCommands (s : Scope) : List Declaration → List Command
  | [] => []
  | d :: ds => s.fieldCommands d ++ (s.declare d).fieldsCommands ds

theorem declareField_eq (s : Scope) (d : Declaration) :
    s.declareField d = (fun _ => s.declare d) <$> Script.give (s.fieldCommands d) := by
  unfold declareField fieldCommands descriptor descriptorWarnings
  cases s.options.sourceComments <;> cases (s.declared? d.name).isSome <;>
    cases Descriptor.ofTag? d.tag <;> rfl

theorem declareFields_eq (s : Scope) (ds : List Declaration) :
    s.declareFields ds = (fun _ => s.declareAll ds) <$> Script.give (s.fieldsCommands ds) := by
  induction ds generalizing s with
  | nil => rfl
  | cons d ds ih =>
    rw [declareFields, declareField_eq, bind_map_left, fieldsCommands, ← Script.give_bind_give]
    simp only [ih, map_bind]
    rfl

theorem emissions_fieldsCommands (s : Scope) (ds : List Declaration) :
    (s.fieldsCommands ds).filterMap Command.emission? = ds.flatMap (·.emissions s.options) := by
  induction ds generalizing s with
  | nil => rfl
  | cons d ds ih =>
    rw [fieldsCommands, List.filterMap_append, ih, options_declare, List.flatMap_cons]
    congr 1
    unfold fieldCommands Declaration.emissions descriptorWarnings
    cases s.options.sourceComments <;> cases (s.declared? d.name).isSome <;>
      cases Descriptor.ofTag? d.tag <;> rfl

theorem warnings_fieldsCommands (s : Scope) (ds : List Declaration) :
    (s.fieldsCommands ds).filterMap Command.warning? = declarationWarnings s ds := by
  induction ds generalizing s with
  | nil => rfl
  | cons d ds ih =>
    rw [fieldsCommands, List.filterMap_append, ih, declarationWarnings]
    congr 1
    unfold fieldCommands descriptorWarnings
    cases s.options.sourceComments <;> cases (s.declared? d.name).isSome <;>
      cases Descriptor.ofTag? d.tag <;> rfl

end Scope

namespace Program

/-- The scope of a program's body. -/
def scope (p : Program) (options : Options) : Scope :=
  (Scope.ofProgram options p).declareAll p.decls

/-- What is emitted before the main method is opened. -/
def preamble (p : Program) (options : Options) : List Emission :=
  [.directive s!".class public {p.name}", .directive s!".super {options.superClass}", .blank] ++
    Library.supports.map (fun s => .directive (fieldDirective s.field s.descriptor)) ++
    p.decls.flatMap (·.emissions options) ++
    [.blank, .openMethod "public <init>()V", .plain .aload0,
      .invoke .invokeNonVirtual (Descriptor.constructor options.superClass), .plain .ret,
      .closeMethod 1 1, .blank]

/-- The header of the main method, after `.method`. -/
def mainHeader : String := s!"public static {Library.mainSignature}"

/-- What is emitted between the opening and the closing of the main method. -/
def mainEmissions (p : Program) (options : Options) : List Emission :=
  Library.supports.flatMap (p.scope options).makeSupport ++
    (lowerAll (p.scope options) ⟨0, 0⟩ p.body).emissions ++
    [.blank, .load ((p.scope options).field Library.runTimer.field Library.runTimer.descriptor),
      .invoke .invokeVirtual Library.printElapsedTime, .blank, .plain .ret]

/-- The commands before those of the body. -/
def frontCommands (p : Program) (options : Options) : List Command :=
  [.note s!"generating class {p.name}"] ++ (Scope.ofProgram options p).header.commands ++
    (Scope.ofProgram options p).fieldsCommands p.decls ++
    (p.scope options).constructor.commands ++ (p.scope options).prologue.commands

/-- A program is lowered to its body, between commands that cannot stop. -/
theorem lower_eq (p : Program) (options : Options) :
    p.lower options = (do
      Script.give (p.frontCommands options)
      let _ ← lowerAll (p.scope options) ⟨0, 0⟩ p.body
      (p.scope options).epilogue) := by
  have hheader : (Scope.ofProgram options p).header =
      Script.give (Scope.ofProgram options p).header.commands := rfl
  simp only [lower, Scope.declareFields_eq, bind_map_left, frontCommands, ← Script.give_bind_give,
    bind_assoc, ← hheader]
  rfl

theorem emissions_frontCommands (p : Program) (options : Options) :
    (p.frontCommands options).filterMap Command.emission? =
      p.preamble options ++ Emission.openMethod mainHeader ::
        Library.supports.flatMap (p.scope options).makeSupport := by
  have hoptions : (p.scope options).options = options := Scope.options_declareAll _ _
  have hconstructor : (p.scope options).constructor.commands.filterMap Command.emission? =
      [.blank, .openMethod "public <init>()V", .plain .aload0,
        .invoke .invokeNonVirtual (Descriptor.constructor options.superClass), .plain .ret,
        .closeMethod 1 1] := by
    rw [Scope.constructor, hoptions]
    rfl
  simp only [frontCommands, List.filterMap_append, Scope.emissions_fieldsCommands, hconstructor,
    preamble, List.append_assoc]
  rfl

theorem warnings_frontCommands (p : Program) (options : Options) :
    (p.frontCommands options).filterMap Command.warning? =
      declarationWarnings (Scope.ofProgram options p) p.decls := by
  simp only [frontCommands, List.filterMap_append, Scope.warnings_fieldsCommands]
  exact (List.append_nil _).trans (List.append_nil _)

/-- A program is lowered only if its body is, and then to a preamble and a main method. -/
theorem lower_ok {p : Program} {options : Options} (h : (p.lower options).result = .ok ()) :
    (lowerAll (p.scope options) ⟨0, 0⟩ p.body).result = .ok (afterAll ⟨0, 0⟩ p.body) ∧
      (p.lower options).emissions =
        p.preamble options ++ Emission.openMethod mainHeader :: p.mainEmissions options ++
          [Emission.closeMethod options.localsLimit options.stackLimit] := by
  rw [lower_eq] at h ⊢
  obtain ⟨⟨⟩, -, h⟩ := Script.bind_result_eq_ok_iff.mp h
  obtain ⟨c, hb, -⟩ := Script.bind_result_eq_ok_iff.mp h
  obtain ⟨rfl, -⟩ := lowerAll_writes _ _ _ hb
  refine ⟨hb, ?_⟩
  rw [Script.emissions_bind rfl, Script.emissions_bind hb, Script.emissions_give,
    emissions_frontCommands]
  simp [Scope.epilogue, mainEmissions, scope]

/-- The script of a program stops at the first defect of its body. -/
theorem defect?_lower (p : Program) (options : Options) :
    (p.lower options).defect? = p.sites.findSome? Site.defect? := by
  have hbody := defect?_lowerAll (p.scope options) ⟨0, 0⟩ p.body
  rw [sites, ← hbody, lower_eq]
  unfold Script.defect?
  cases h : (lowerAll (p.scope options) ⟨0, 0⟩ p.body).result with
  | ok c => rw [Script.result_bind rfl, Script.result_bind h]; rfl
  | error d => rw [Script.result_bind rfl, Script.bind_of_error h]

/-- The tree of a unit has no defects. -/
theorem defect?_eq_none_of_unit {p : Program} {options : Options} {u : ClassUnit}
    (h : p.unit options = .ok u) : ∀ site ∈ p.sites, site.defect? = none := by
  obtain ⟨hr, -⟩ := unit_eq_ok h
  apply List.findSome?_eq_none_iff.mp
  rw [← p.defect?_lower options]
  exact Script.defect?_eq_none_iff.mpr ⟨(), hr⟩

/-- The listing under construction right after the main method was opened. -/
def atMain (p : Program) (options : Options) : Assembler :=
  Assembler.emitAll {} (p.preamble options ++ [.openMethod mainHeader])

/-- The number in the main method's stack directive. -/
def stackLimit (p : Program) (options : Options) : Nat :=
  max options.stackLimit.toNat ((p.atMain options).emitAll (p.mainEmissions options)).peak

end Program

namespace Scope

/-- The lines that make a supporting object and keep it in its field. -/
def supportCode (scope : Scope) (s : Library.Support) : List Line :=
  [.instruction .new (some s.className), .instruction .dup none,
    .instruction .invokeNonVirtual (some (Descriptor.constructor s.className)),
    .instruction .putStatic (some (scope.field s.field s.descriptor).text)]

/-- The lines that make the supporting objects. -/
def prologueCode (scope : Scope) : List Line := Library.supports.flatMap scope.supportCode

/-- The lines that report the time and end the method. -/
def epilogueCode (scope : Scope) : List Line :=
  [.blank, .instruction .getStatic (some
      (scope.field Library.runTimer.field Library.runTimer.descriptor).text),
    .instruction .invokeVirtual (some Library.printElapsedTime), .blank, .instruction .ret none]

end Scope

namespace Program

def mainCode (p : Program) (options : Options) : List Line :=
  (p.scope options).prologueCode ++ codeAll (p.scope options) ⟨0, 0⟩ p.body ++
    (p.scope options).epilogueCode

/-- The directives that close the main method. -/
def closing (options : Options) (limit : Nat) : List Line :=
  [.blank, .directive s!".limit locals {options.localsLimit}",
    .directive s!".limit stack {limit}", .directive ".end method"]

/-- The line that opens the main method. -/
def mainLine : Line := .directive s!".method {mainHeader}"

/-- The lines up to the header of the main method. -/
def opening (p : Program) (options : Options) : List Line :=
  Assembler.writtenAll {} (p.preamble options) ++ [mainLine]

end Program

namespace Assembler

theorem line_emitAll {es : List Emission} (h : ∀ n, .setLine n ∉ es) (a : Assembler) :
    (a.emitAll es).line = a.line := by
  induction es generalizing a with
  | nil => rfl
  | cons e es ih =>
    rw [emitAll_cons, ih fun n hn => h n (List.mem_cons_of_mem e hn)]
    cases e with
    | setLine n => exact absurd List.mem_cons_self (h n)
    | _ => rfl

theorem mem_writtenAll {line : Line} {es : List Emission} {a : Assembler}
    (h : line ∈ a.writtenAll es) : ∃ e ∈ es, ∃ b : Assembler, line ∈ b.written e := by
  induction es generalizing a with
  | nil => simp at h
  | cons e es ih =>
    rw [writtenAll_cons, List.mem_append] at h
    rcases h with h | h
    · exact ⟨e, List.mem_cons_self, a, h⟩
    · obtain ⟨f, hf, b, hb⟩ := ih h
      exact ⟨f, List.mem_cons_of_mem e hf, b, hb⟩

end Assembler

/-- Texts with beginnings that differ at a place differ. -/
theorem append_ne_append {a b x y : String} (i : Nat) (ha : i < a.toList.length)
    (hb : i < b.toList.length) (h : a.toList[i]? ≠ b.toList[i]?) : a ++ x ≠ b ++ y := by
  intro he
  apply h
  have hi := congrArg (fun s => s.toList[i]?) he
  simpa only [String.toList_append, List.getElem?_append_left ha,
    List.getElem?_append_left hb] using hi

theorem fieldDirective_eq (name descriptor : String) :
    fieldDirective name descriptor = ".field private static " ++ (name ++ " " ++ descriptor) := by
  change ".field private static " ++ name ++ " " ++ descriptor = _
  simp only [String.append_assoc]

namespace Program

/-- The emissions that build a class up to its main method. -/
inductive Outer : Emission → Prop
  | className (name : String) : Outer (.directive s!".class public {name}")
  | superClass (name : String) : Outer (.directive s!".super {name}")
  | field (name descriptor : String) : Outer (.directive (fieldDirective name descriptor))
  | comment (text : String) : Outer (.comment text)
  | blank : Outer .blank
  | openMethod : Outer (.openMethod "public <init>()V")
  | instruction (op : Opcode) (operand : Option String) : Outer (.instruction op operand)
  | invoke (op : Opcode) (method : String) : Outer (.invoke op method)
  | closeMethod (locals stack : UInt32) : Outer (.closeMethod locals stack)

theorem outer_of_mem_preamble {p : Program} {options : Options} {e : Emission}
    (h : e ∈ p.preamble options) : Outer e := by
  simp only [preamble, List.mem_append, List.mem_flatMap, List.mem_map] at h
  rcases h with ((h | ⟨s, -, rfl⟩) | ⟨d, -, h⟩) | h
  · simp only [List.mem_cons, List.not_mem_nil, or_false] at h
    rcases h with rfl | rfl | rfl
    · exact .className _
    · exact .superClass _
    · exact .blank
  · exact .field _ _
  · rw [Declaration.emissions, List.mem_append, List.mem_singleton] at h
    rcases h with h | rfl
    · split at h
      · simp only [List.mem_cons, List.not_mem_nil, or_false] at h
        rcases h with rfl | rfl
        · exact .blank
        · exact .comment _
      · simp at h
    · exact .field _ _
  · simp only [List.mem_cons, List.not_mem_nil, or_false] at h
    rcases h with rfl | rfl | rfl | rfl | rfl | rfl | rfl
    · exact .blank
    · exact .openMethod
    · exact .instruction _ _
    · exact .invoke _ _
    · exact .instruction _ _
    · exact .closeMethod _ _
    · exact .blank

@[simp] theorem line_atMain (p : Program) (options : Options) : (p.atMain options).line = 0 := by
  refine Assembler.line_emitAll (fun n hn => ?_) {}
  rcases List.mem_append.mp hn with hn | hn
  · nomatch outer_of_mem_preamble hn
  · simp at hn

@[simp] theorem depth_atMain (p : Program) (options : Options) :
    (p.atMain options).depth = 0 := by
  rw [atMain, Assembler.emitAll_append]
  rfl

@[simp] theorem peak_atMain (p : Program) (options : Options) : (p.atMain options).peak = 0 := by
  rw [atMain, Assembler.emitAll_append]
  rfl

theorem writtenAll_mainEmissions {p : Program} {options : Options}
    (h : (lowerAll (p.scope options) ⟨0, 0⟩ p.body).result = .ok (afterAll ⟨0, 0⟩ p.body)) :
    (p.atMain options).writtenAll (p.mainEmissions options) = p.mainCode options := by
  obtain ⟨-, hw⟩ := lowerAll_writes _ _ _ h
  have hl : ((p.atMain options).emitAll
      (Library.supports.flatMap (p.scope options).makeSupport)).line = 0 := by
    rw [Assembler.line_emitAll, line_atMain]
    intro n
    simp [Library.supports, Scope.makeSupport, Emission.create, Emission.plain, Emission.store]
  rw [mainEmissions, Assembler.writtenAll_append, Assembler.writtenAll_append, hw.written _ hl]
  rfl

/-- No line before the main method is a label, a branch or the header of the main method. -/
theorem mem_preamble_lines {p : Program} {options : Options} {line : Line}
    (h : line ∈ Assembler.writtenAll {} (p.preamble options)) :
    line.defined? = none ∧ line.target? = none ∧ line ≠ mainLine := by
  obtain ⟨e, he, b, hb⟩ := Assembler.mem_writtenAll h
  cases outer_of_mem_preamble he with
  | className name =>
    cases List.mem_singleton.mp hb
    refine ⟨rfl, rfl, fun hm => ?_⟩
    exact append_ne_append 1 (by decide) (by decide) (by decide) (Line.directive.inj hm)
  | superClass name =>
    cases List.mem_singleton.mp hb
    refine ⟨rfl, rfl, fun hm => ?_⟩
    exact append_ne_append 1 (by decide) (by decide) (by decide) (Line.directive.inj hm)
  | field name descriptor =>
    cases List.mem_singleton.mp hb
    refine ⟨rfl, rfl, fun hm => ?_⟩
    rw [fieldDirective_eq] at hm
    exact append_ne_append 1 (by decide) (by decide) (by decide) (Line.directive.inj hm)
  | comment text => cases List.mem_singleton.mp hb; exact ⟨rfl, rfl, nofun⟩
  | blank => cases List.mem_singleton.mp hb; exact ⟨rfl, rfl, nofun⟩
  | instruction op operand => cases List.mem_singleton.mp hb; exact ⟨rfl, rfl, nofun⟩
  | invoke op method => cases List.mem_singleton.mp hb; exact ⟨rfl, rfl, nofun⟩
  | openMethod =>
    simp only [Assembler.written, List.mem_cons, List.not_mem_nil, or_false] at hb
    rcases hb with rfl | rfl
    · exact ⟨rfl, rfl, by decide⟩
    · exact ⟨rfl, rfl, nofun⟩
  | closeMethod locals stack =>
    simp only [Assembler.written, List.mem_cons, List.not_mem_nil, or_false] at hb
    rcases hb with rfl | rfl | rfl | rfl
    · exact ⟨rfl, rfl, nofun⟩
    · refine ⟨rfl, rfl, fun hm => ?_⟩
      exact append_ne_append 1 (by decide) (by decide) (by decide) (Line.directive.inj hm)
    · refine ⟨rfl, rfl, fun hm => ?_⟩
      exact append_ne_append 1 (by decide) (by decide) (by decide) (Line.directive.inj hm)
    · exact ⟨rfl, rfl, by decide⟩

/-- The listing of a unit is its opening, the main method and the closing directives. -/
theorem listing_eq {p : Program} {options : Options} {u : ClassUnit}
    (h : p.unit options = .ok u) :
    u.listing = p.opening options ++ (Line.blank :: p.mainCode options) ++
      closing options (p.stackLimit options) := by
  obtain ⟨hr, hl, -⟩ := unit_eq_ok h
  obtain ⟨hb, he⟩ := lower_ok hr
  have hm : u.listing = Assembler.writtenAll {} (p.preamble options) ++
      ([mainLine, .blank] ++ ((p.atMain options).writtenAll (p.mainEmissions options) ++
        ((p.atMain options).emitAll (p.mainEmissions options)).writtenAll
          [.closeMethod options.localsLimit options.stackLimit])) := by
    rw [hl, he, atMain, List.append_assoc, Assembler.writtenAll_append, List.cons_append,
      Assembler.writtenAll_cons, Assembler.writtenAll_append, Assembler.emitAll_append]
    rfl
  rw [hm, writtenAll_mainEmissions hb]
  simp [opening, closing, Assembler.written, stackLimit]

/-- Labels and branches stand in the main method only. -/
theorem mem_outside {p : Program} {options : Options} {limit : Nat} {line : Line}
    (h : line ∈ p.opening options ++ closing options limit) :
    line.defined? = none ∧ line.target? = none := by
  rcases List.mem_append.mp h with h | h
  · rcases List.mem_append.mp h with h | h
    · obtain ⟨hd, ht, -⟩ := mem_preamble_lines h
      exact ⟨hd, ht⟩
    · cases List.mem_singleton.mp h
      exact ⟨rfl, rfl⟩
  · simp only [closing, List.mem_cons, List.not_mem_nil, or_false] at h
    rcases h with rfl | rfl | rfl | rfl <;> exact ⟨rfl, rfl⟩

/-- The position of the first line inside the main method. -/
def mainEntry (ls : Listing) : Nat := ls.idxOf mainLine + 1

theorem mainEntry_listing {p : Program} {options : Options} {u : ClassUnit}
    (h : p.unit options = .ok u) : mainEntry u.listing = (p.opening options).length := by
  have hn : mainLine ∉ Assembler.writtenAll {} (p.preamble options) :=
    fun hm => (mem_preamble_lines hm).2.2 rfl
  rw [listing_eq h, mainEntry, opening, List.append_assoc, List.append_assoc, List.idxOf_append,
    if_neg hn, List.singleton_append, List.idxOf_cons_self, List.length_append,
    List.length_singleton]
  omega

/-- Count down from three, with a conditional and a print inside a loop. -/
def countdown : Program where
  name := "Countdown"
  decls := [⟨"n", .integer, ⟨1, 5, 1⟩⟩, ⟨"x", .real, ⟨1, 17, 1⟩⟩]
  body :=
    [.assign ⟨"n", .integer, ⟨3, 3, 1⟩⟩ (.literal .int "3" .integer ⟨3, 8, 1⟩) ⟨3, 3, 6⟩,
      .assign ⟨"x", .real, ⟨4, 3, 1⟩⟩ (.literal .float "1.5" .real ⟨4, 8, 3⟩) ⟨4, 3, 8⟩,
      .loop
        [.ifElse (.binary (.relation .lt) (.var ⟨"x", .real, ⟨6, 8, 1⟩⟩)
            (.literal .float "0.0" .real ⟨6, 12, 3⟩) .unknown ⟨6, 8, 7⟩)
          [.print "'%d below zero\\n'" [.var ⟨"n", .integer, ⟨7, 20, 1⟩⟩] ⟨7, 7, 16⟩]
          [.assign ⟨"x", .real, ⟨9, 7, 1⟩⟩
            (.negate (.var ⟨"x", .real, ⟨9, 13, 1⟩⟩) .real ⟨9, 12, 2⟩) ⟨9, 7, 7⟩] ⟨6, 5, 2⟩,
          .assign ⟨"n", .integer, ⟨10, 5, 1⟩⟩ (.binary (.arithmetic .sub)
            (.var ⟨"n", .integer, ⟨10, 10, 1⟩⟩) (.literal .int "1" .integer ⟨10, 14, 1⟩) .integer
            ⟨10, 10, 5⟩) ⟨10, 5, 10⟩]
        (.binary (.relation .gt) (.var ⟨"n", .integer, ⟨11, 9, 1⟩⟩)
          (.literal .int "0" .integer ⟨11, 13, 1⟩) .unknown ⟨11, 9, 5⟩) ⟨5, 3, 4⟩]

/-- The text of `countdown`. -/
def countdownText : String :=
  "var n : integer; x : real;\r\nbegin\r\n  n := 3;\r\n  x := 1.5;\r\n  repeat\r\n" ++
    "    if x < 0.0 then\r\n      writeln('%d below zero\\n', n)\r\n    else\r\n      x := -x;\r\n" ++
    "    n := n - 1\r\n  until n > 0\r\nend."

theorem countdown_unit : ∃ u, countdown.unit {} = .ok u ∧ u.warnings = [] := ⟨_, rfl, rfl⟩

end Program

end StackLowering
