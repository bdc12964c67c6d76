import StackLowering.Proofs.Fields

/-!
What sites write. Code arises where lowering is done with a site, so a view of lines that sees only
what single sites write is a view of the lines of the exits of a tree, one site after another.
-/
namespace StackLowering

namespace Scope

/-- The line that keeps a supporting object in its field. -/
def keepLine (scope : Scope) (s : Library.Support) : Line :=
  .instruction .putStatic (some (scope.field s.field s.descriptor).text)

/-- The line that loads the timer at the end. -/
def timerLine (scope : Scope) : Line :=
  .instruction .getStatic (some (scope.field Library.runTimer.field
    Library.runTimer.descriptor).text)

end Scope

/-! The lines of a site, and views that see no other lines of a tree's code. -/

/-- The lines that a site writes by itself: the operation of a node, the jump of a condition, the
store of an assignment, and the load of the stream that a print writes to. Where a jump leads is
left open. -/
def Site.lines (scope : Scope) : Site → List Line
  | value (.literal _ text _ _) => [.instruction .ldc (some text)]
  | value (.var v) => [.instruction .getStatic (some (scope.fieldFor v).text)]
  | value (.binary op left right _ _) => [.instruction (op.arithmeticOr left.tag right.tag) none]
  | value (.negate operand _ _) => [.instruction operand.tag.negationOr none]
  | condition (.binary op left right _ _) => (op.comparisonOr left.tag right.tag).lines ⟨0⟩
  | condition _ => []
  | assignment target _ _ => [.instruction .putStatic (some (scope.fieldFor target).text)]
  | format _ _ => [.instruction .getStatic (some Library.systemOut)]
  | argument _ _ => []

/-- The code of a value is what its exits write. -/
theorem Expr.flatMap_lines_exits (scope : Scope) (e : Expr) :
    e.exits.flatMap (Site.lines scope) = e.code scope := by
  induction e with
  | literal kind text tag span => rfl
  | var v => rfl
  | binary op left right tag span ihl ihr => simp [code, exits, Site.lines, ihl, ihr]
  | negate operand tag span ih => simp [code, exits, Site.lines, ih]

/-- The operations that sites choose: those on fields and on numbers, and conditional jumps. -/
def Opcode.ofSite : Opcode → Bool
  | getStatic | putStatic | arith _ _ | neg _ | ifCompare _ | fcmpl | fcmpg | ifZero _
  | unresolved | unresolvedBranch | unresolvedNeg => true
  | _ => false

/-- A view of lines that sees only the lines of fields and what sites choose, and that does not see
where a jump leads. -/
structure SiteView {β : Type} (view : Line → Option β) : Prop where
  directive : ∀ text, (Line.directive text).isField = false → view (.directive text) = none
  comment : ∀ text, view (.comment text) = none
  blank : view .blank = none
  label : ∀ l, view (.label l) = none
  goto : ∀ l, view (.branch .goto l) = none
  other : ∀ op operand, op.ofSite = false → view (.instruction op operand) = none
  target : ∀ op l m, view (.branch op l) = view (.branch op m)

namespace SiteView

variable {β : Type} {view : Line → Option β} (scope : Scope)

theorem still (h : SiteView view) (line : Line) (hline : line.Still) : view line = none := by
  cases hline with
  | lineDirective n => exact h.directive _ (Line.isField_append (by decide) (by decide))
  | comment text => exact h.comment text
  | blank => exact h.blank
  | label l => exact h.label l
  | goto l => exact h.goto l

theorem still_cons (h : SiteView view) (line : Line) (hline : line.Still) (ls : List Line) :
    (line :: ls).filterMap view = ls.filterMap view := List.filterMap_cons_none (h.still line hline)

theorem other_cons (h : SiteView view) (op : Opcode) (hop : op.ofSite = false)
    (operand : Option String) (ls : List Line) :
    (Line.instruction op operand :: ls).filterMap view = ls.filterMap view :=
  List.filterMap_cons_none (h.other op operand hop)

theorem annotationLines (h : SiteView view) (cursor : Cursor) (span : Span) :
    (scope.annotationLines cursor span).filterMap view = [] := by
  apply List.filterMap_eq_nil_iff.mpr
  intro line hline
  exact h.still line (Scope.annotationLines_still hline).1

theorem lines (h : SiteView view) (j : Jump) (l m : Label) :
    (j.lines l).filterMap view = (j.lines m).filterMap view := by
  cases j with
  | direct b => simp only [Jump.lines, List.filterMap_cons, h.target b l m]
  | compared c b => simp only [Jump.lines, List.filterMap_cons, h.target b l m]

theorem branchCode (h : SiteView view) {e : Expr} (hd : (Site.condition e).defect? = none)
    (target : Label) :
    (e.branchCode scope target).filterMap view =
      (e.conditionExits.flatMap (Site.lines scope)).filterMap view := by
  cases e with
  | binary op left right tag span =>
    simp [Expr.branchCode, Expr.conditionExits, Expr.operands, Site.lines,
      Expr.flatMap_lines_exits, h.lines _ target ⟨0⟩]
  | _ => simp [Site.defect?, Expr.isComparison] at hd

theorem argumentsCode (h : SiteView view) (index : Nat) (args : List Expr) :
    (argumentsCode scope index args).filterMap view =
      ((argumentExits index args).flatMap (Site.lines scope)).filterMap view := by
  induction args generalizing index with
  | nil => rfl
  | cons arg args ih =>
    simp only [StackLowering.argumentsCode, argumentExits, Site.lines, Expr.flatMap_lines_exits,
      List.flatMap_append, List.flatMap_cons, List.cons_append, List.nil_append, List.append_assoc]
    rw [h.other_cons .dup rfl, h.other_cons .ldc rfl, List.filterMap_append,
      h.other_cons .invokeStatic rfl, h.other_cons .aastore rfl, ih (index + 1),
      ← List.filterMap_append]

theorem printCode (h : SiteView view) (text format : String) (args : List Expr) (span : Span) :
    (printCode scope text args).filterMap view =
      ((Stmt.print format args span).exits.flatMap (Site.lines scope)).filterMap view := by
  have hload : (Stmt.print format args span).exits.flatMap (Site.lines scope) =
      [.instruction .getStatic (some Library.systemOut)] ++
        (argumentExits 0 args).flatMap (Site.lines scope) := rfl
  have hend : [Line.instruction .invokeVirtual (some Library.printf),
      .instruction .pop none].filterMap view = [] := by
    rw [h.other_cons .invokeVirtual rfl, h.other_cons .pop rfl, List.filterMap_nil]
  rw [hload, StackLowering.printCode, List.filterMap_append, hend, List.append_nil,
    List.filterMap_append, List.filterMap_append, ← h.argumentsCode scope, ← List.singleton_append,
    List.filterMap_append, h.other_cons .ldc rfl, h.other_cons .ldc rfl,
    h.other_cons .anewarray rfl, List.filterMap_nil, List.append_nil]

mutual

theorem stmt_code (h : SiteView view) (cursor : Cursor) {s : Stmt}
    (hd : ∀ site ∈ s.sites, site.defect? = none) :
    (s.code scope cursor).filterMap view =
      (s.exits.flatMap (Site.lines scope)).filterMap view := by
  cases s with
  | assign target value span =>
    simp [Stmt.code, Stmt.exits, Site.lines, Expr.flatMap_lines_exits]
  | block body span => exact codeAll h cursor hd
  | ifThen cond body span =>
    obtain ⟨hc, hb⟩ := List.forall_mem_append.mp hd
    have hcond := h.branchCode scope (hc _ List.mem_cons_self)
    simp [Stmt.code, Stmt.exits, h.still_cons, Line.Still.label, Line.Still.goto, hcond,
      codeAll h _ hb]
  | ifElse cond body alternative span =>
    obtain ⟨hc, hab⟩ := List.forall_mem_append.mp hd
    obtain ⟨ha, hb⟩ := List.forall_mem_append.mp hab
    have hcond := h.branchCode scope (hc _ List.mem_cons_self)
    simp [Stmt.code, Stmt.exits, h.still_cons, Line.Still.label, Line.Still.goto, hcond,
      codeAll h _ ha, codeAll h _ hb]
  | loop body cond span =>
    obtain ⟨hb, hc⟩ := List.forall_mem_append.mp hd
    have hcond := h.branchCode scope (hc _ List.mem_cons_self)
    simp [Stmt.code, Stmt.exits, h.still_cons, Line.Still.label, hcond, codeAll h _ hb]
  | print format args span =>
    obtain ⟨text, ht⟩ := Site.exists_formatText?_of_format (hd _ List.mem_cons_self)
    simp only [Stmt.code, ht]
    exact h.printCode scope text format args span

/-- A view of sites sees of the code of a tree without defects what its exits write. -/
theorem codeAll (h : SiteView view) (cursor : Cursor) {ss : List Stmt}
    (hd : ∀ site ∈ sitesAll ss, site.defect? = none) :
    (codeAll scope cursor ss).filterMap view =
      ((exitsAll ss).flatMap (Site.lines scope)).filterMap view := by
  cases ss with
  | nil => rfl
  | cons s ss =>
    obtain ⟨hs, hss⟩ := List.forall_mem_append.mp hd
    simp [StackLowering.codeAll, exitsAll, h.annotationLines scope, stmt_code h _ hs,
      codeAll h _ hss]

end

variable {p : Program} {options : Options}

theorem header (h : SiteView view) : (p.header options).filterMap view = [] := by
  have hclass : (Line.directive s!".class public {p.name}").isField = false :=
    Line.isField_append (by decide) (by decide)
  have hsuper : (Line.directive s!".super {options.superClass}").isField = false :=
    Line.isField_append (by decide) (by decide)
  rw [Program.header, List.filterMap_cons_none (h.directive _ hclass),
    List.filterMap_cons_none (h.directive _ hsuper), h.still_cons _ .blank, List.filterMap_nil]

theorem declarationLines (h : SiteView view) (ds : List Declaration) :
    (ds.flatMap (·.lines options)).filterMap view =
      (ds.map Declaration.fieldLine).filterMap view := by
  induction ds with
  | nil => rfl
  | cons d ds ih =>
    have hd : (d.lines options).filterMap view = [d.fieldLine].filterMap view := by
      rw [Declaration.lines]
      split
      · exact (h.still_cons _ .blank _).trans (h.still_cons _ (.comment _) _)
      · rfl
    rw [List.flatMap_cons, List.filterMap_append, hd, ih, ← List.filterMap_append]
    rfl

theorem constructorLines (h : SiteView view) (limit : Nat) :
    (Program.constructorLines options limit).filterMap view = [] := by
  have hstack : (Line.directive s!".limit stack {limit}").isField = false :=
    Line.isField_append (by decide) (by decide)
  rw [List.filterMap_eq_nil_iff, Program.constructorLines]
  simp only [List.forall_mem_cons]
  exact ⟨h.still _ .blank, h.directive _ (by decide), h.still _ .blank, h.other _ _ rfl,
    h.other _ _ rfl, h.other _ _ rfl, h.still _ .blank, h.directive _ (by decide),
    h.directive _ hstack, h.directive _ (by decide), h.still _ .blank, nofun⟩

theorem opening (h : SiteView view) :
    (p.opening options).filterMap view = p.fieldLines.filterMap view := by
  have hmain : [Program.mainLine].filterMap view = [] :=
    List.filterMap_cons_none (h.directive _ Program.isField_mainLine)
  simp only [p.opening_eq, Program.fieldLines, List.filterMap_append, h.header, h.declarationLines,
    h.constructorLines, hmain, List.nil_append, List.append_nil]

theorem closing (h : SiteView view) (limit : Nat) :
    (Program.closing options limit).filterMap view = [] := by
  have hlocals : (Line.directive s!".limit locals {options.localsLimit}").isField = false :=
    Line.isField_append (by decide) (by decide)
  have hstack : (Line.directive s!".limit stack {limit}").isField = false :=
    Line.isField_append (by decide) (by decide)
  rw [Program.closing, h.still_cons _ .blank, List.filterMap_cons_none (h.directive _ hlocals),
    List.filterMap_cons_none (h.directive _ hstack),
    List.filterMap_cons_none (h.directive _ (by decide)), List.filterMap_nil]

theorem supportsCode (h : SiteView view) (ss : List Library.Support) :
    (ss.flatMap scope.supportCode).filterMap view =
      (ss.map scope.keepLine).filterMap view := by
  induction ss with
  | nil => rfl
  | cons s ss ih =>
    have hs : (scope.supportCode s).filterMap view = [scope.keepLine s].filterMap view := by
      rw [Scope.supportCode, h.other_cons .new rfl, h.other_cons .dup rfl,
        h.other_cons .invokeNonVirtual rfl]
      rfl
    rw [List.flatMap_cons, List.filterMap_append, hs, ih, ← List.filterMap_append]
    rfl

theorem epilogueCode (h : SiteView view) :
    scope.epilogueCode.filterMap view = [scope.timerLine].filterMap view := by
  have hend : [Line.instruction .invokeVirtual (some Library.printElapsedTime), .blank,
      .instruction .ret none].filterMap view = [] := by
    rw [h.other_cons .invokeVirtual rfl, h.still_cons _ .blank, h.other_cons .ret rfl,
      List.filterMap_nil]
  rw [Scope.epilogueCode, h.still_cons _ .blank, ← List.singleton_append, List.filterMap_append,
    hend, List.append_nil]
  rfl

/-- A view of sites sees of a listing the lines of the fields, the stores of the supporting objects,
what the exits of the body write, and the load of the timer. -/
theorem listing (h : SiteView view) {u : ClassUnit} (hu : p.unit options = .ok u) :
    u.listing.filterMap view =
      (p.fieldLines ++ Library.supports.map (p.scope options).keepLine ++
        p.exits.flatMap (Site.lines (p.scope options)) ++
        [(p.scope options).timerLine]).filterMap view := by
  have hd := Program.defect?_eq_none_of_unit hu
  rw [Program.listing_eq hu, Program.mainCode, Scope.prologueCode, Program.exits]
  simp only [List.filterMap_append, h.opening, h.closing, h.supportsCode, h.epilogueCode,
    h.codeAll _ _ hd, h.still_cons _ .blank, List.append_nil, List.append_assoc]

end SiteView

end StackLowering
