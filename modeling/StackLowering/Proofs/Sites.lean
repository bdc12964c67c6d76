import StackLowering.Proofs.Emission

/-!
Sites of a tree. A site is a place at which lowering has something to check: a node whose value is
needed, a condition, an assignment, a format, or an argument of a print. The sites of a tree are
listed in the order in which lowering comes to them, and its exits are the same sites in the order
in which lowering is done with them. A site can be a defect, and it has its warnings.
-/
namespace StackLowering

inductive Site where
  /-- A node whose value is needed. -/
  | value (e : Expr)
  /-- The condition of a conditional or a loop. -/
  | condition (e : Expr)
  | assignment (target : Variable) (value : Expr) (span : Span)
  | format (literal : String) (span : Span)
  | argument (index : Nat) (e : Expr)
deriving DecidableEq, Repr

namespace Expr

/-- The operands of a node, left before right. -/
def operands : Expr → List Expr
  | literal _ _ _ _ | var _ => []
  | binary _ left right _ _ => [left, right]
  | negate operand _ _ => [operand]

/-- The sites of a value: each node before its operands. -/
def sites : Expr → List Site
  | literal kind text tag span => [.value (literal kind text tag span)]
  | var v => [.value (var v)]
  | binary op left right tag span =>
    .value (binary op left right tag span) :: (left.sites ++ right.sites)
  | negate operand tag span => .value (negate operand tag span) :: operand.sites

/-- The sites of a condition: the condition itself has no value, but its operands have one. -/
def conditionSites (e : Expr) : List Site := .condition e :: e.operands.flatMap sites

end Expr

/-- The sites of print arguments from an index on. -/
def argumentSites : Nat → List Expr → List Site
  | _, [] => []
  | index, arg :: args => .argument index arg :: (arg.sites ++ argumentSites (index + 1) args)

mutual

/-- The sites of a statement. An alternative comes before the body, and the body of a loop before
its condition. -/
def Stmt.sites : Stmt → List Site
  | .assign target value span => value.sites ++ [.assignment target value span]
  | .block body _ => sitesAll body
  | .ifThen cond body _ => cond.conditionSites ++ sitesAll body
  | .ifElse cond body alternative _ =>
    cond.conditionSites ++ (sitesAll alternative ++ sitesAll body)
  | .loop body cond _ => sitesAll body ++ cond.conditionSites
  | .print format args span => .format format span :: argumentSites 0 args

/-- The sites of statements one after another. -/
def sitesAll : List Stmt → List Site
  | [] => []
  | s :: ss => s.sites ++ sitesAll ss

end

def Program.sites (p : Program) : List Site := sitesAll p.body

namespace Expr

/-- The exits of a value: each node after its operands. -/
def exits : Expr → List Site
  | literal kind text tag span => [.value (literal kind text tag span)]
  | var v => [.value (var v)]
  | binary op left right tag span =>
    left.exits ++ right.exits ++ [.value (binary op left right tag span)]
  | negate operand tag span => operand.exits ++ [.value (negate operand tag span)]

def conditionExits (e : Expr) : List Site := e.operands.flatMap exits ++ [.condition e]

end Expr

/-- The exits of print arguments from an index on. -/
def argumentExits : Nat → List Expr → List Site
  | _, [] => []
  | index, arg :: args => arg.exits ++ [.argument index arg] ++ argumentExits (index + 1) args

mutual

/-- The exits of a statement. A print is done with its format before its arguments. -/
def Stmt.exits : Stmt → List Site
  | .assign target value span => value.exits ++ [.assignment target value span]
  | .block body _ => exitsAll body
  | .ifThen cond body _ => cond.conditionExits ++ exitsAll body
  | .ifElse cond body alternative _ =>
    cond.conditionExits ++ (exitsAll alternative ++ exitsAll body)
  | .loop body cond _ => exitsAll body ++ cond.conditionExits
  | .print format args span => .format format span :: argumentExits 0 args

/-- The exits of statements one after another. -/
def exitsAll : List Stmt → List Site
  | [] => []
  | s :: ss => s.exits ++ exitsAll ss

end

def Program.exits (p : Program) : List Site := exitsAll p.body

/-! Lowering is done once with every site that it comes to. -/

namespace Expr

theorem exits_perm (e : Expr) : e.exits.Perm e.sites := by
  induction e with
  | literal kind text tag span => exact .refl _
  | var v => exact .refl _
  | binary op left right tag span ihl ihr =>
    exact (List.perm_append_singleton _ _).trans ((ihl.append ihr).cons _)
  | negate operand tag span ih => exact (List.perm_append_singleton _ _).trans (ih.cons _)

theorem conditionExits_perm (e : Expr) : e.conditionExits.Perm e.conditionSites := by
  apply (List.perm_append_singleton _ _).trans
  apply List.Perm.cons
  induction e.operands with
  | nil => exact .refl _
  | cons operand operands ih => exact operand.exits_perm.append ih

end Expr

theorem argumentExits_perm (index : Nat) (args : List Expr) :
    (argumentExits index args).Perm (argumentSites index args) := by
  induction args generalizing index with
  | nil => exact .refl _
  | cons arg args ih =>
    exact ((List.perm_append_singleton _ _).trans (arg.exits_perm.cons _)).append (ih (index + 1))

mutual

theorem Stmt.exits_perm (s : Stmt) : s.exits.Perm s.sites := by
  cases s with
  | assign target value span => exact value.exits_perm.append_right _
  | block body span => exact exitsAll_perm body
  | ifThen cond body span => exact cond.conditionExits_perm.append (exitsAll_perm body)
  | ifElse cond body alternative span =>
    exact cond.conditionExits_perm.append ((exitsAll_perm alternative).append (exitsAll_perm body))
  | loop body cond span => exact (exitsAll_perm body).append cond.conditionExits_perm
  | print format args span => exact (argumentExits_perm 0 args).cons _

theorem exitsAll_perm (ss : List Stmt) : (exitsAll ss).Perm (sitesAll ss) := by
  cases ss with
  | nil => exact .refl _
  | cons s ss => exact s.exits_perm.append (exitsAll_perm ss)

end

/-! Defects. -/

/-- A text of at least two characters that starts and ends with a single quote. -/
def Quoted (literal : String) : Prop :=
  2 ≤ literal.toList.length ∧ literal.toList.head? = some '\'' ∧
    literal.toList.getLast? = some '\''

instance (literal : String) : Decidable (Quoted literal) := inferInstanceAs (Decidable (_ ∧ _ ∧ _))

/-- What is wrong at a site, if anything. -/
def Site.defect? : Site → Option Defect
  | value (.binary op _ _ _ span) =>
    if op.isComparison then some (.comparisonOutsideCondition op.symbol span) else none
  | condition e => if e.isComparison then none else some (.nonRelationalCondition e.span)
  | format literal span => if Quoted literal then none else some (.malformedFormat literal span)
  | _ => none

theorem Site.isSome_defect?_iff {site : Site} :
    site.defect?.isSome = true ↔
      (∃ e, site = .value e ∧ e.isComparison = true) ∨
        (∃ e, site = .condition e ∧ e.isComparison = false) ∨
        ∃ literal span, site = .format literal span ∧ ¬ Quoted literal := by
  cases site with
  | value e =>
    cases e with
    | binary op left right tag span =>
      cases h : op.isComparison <;> simp [defect?, Expr.isComparison, h]
    | _ => simp [defect?, Expr.isComparison]
  | condition e => cases h : e.isComparison <;> simp [defect?, h]
  | format literal span => by_cases h : Quoted literal <;> simp [defect?, h]
  | _ => simp [defect?]

/-- Only what is quoted has a text between its quotes. -/
theorem isSome_formatText?_iff {literal : String} :
    (formatText? literal).isSome = true ↔ Quoted literal := by
  unfold formatText? Quoted
  cases literal.toList with
  | nil => simp
  | cons c cs =>
    by_cases hc : c = '\''
    · subst hc
      cases cs with
      | nil => simp
      | cons d ds =>
        have hlast : ('\'' :: d :: ds).getLast? = (d :: ds).getLast? := List.getLast?_cons_cons
        by_cases hd : (d :: ds).getLast? = some '\'' <;> simp [hd, hlast]
    · simp [hc]

namespace Site

theorem isComparison_of_condition {e : Expr} (h : (condition e).defect? = none) :
    e.isComparison = true := by
  by_contra hn
  simp [defect?, hn] at h

theorem exists_relation_of_condition {e : Expr} (h : (condition e).defect? = none) :
    ∃ rel left right tag span, e = .binary (.relation rel) left right tag span := by
  have hcompares := isComparison_of_condition h
  cases e with
  | binary op left right tag span =>
    cases op with
    | relation rel => exact ⟨rel, left, right, tag, span, rfl⟩
    | arithmetic op => contradiction
  | _ => contradiction

theorem exists_formatText?_of_format {literal : String} {span : Span}
    (h : (format literal span).defect? = none) : ∃ text, formatText? literal = some text := by
  apply Option.isSome_iff_exists.mp
  apply isSome_formatText?_iff.mpr
  by_contra hn
  simp [defect?, hn] at h

end Site

/-! Warnings. -/

/-- The warning about a variable whose tag has no descriptor. -/
def descriptorWarnings (name : String) (tag : Tag) (span : Span) : List Warning :=
  if (Descriptor.ofTag? tag).isNone then [.unknownDescriptor name span] else []

namespace Scope

/-- The tag that a variable is stored with. -/
def storageTag (s : Scope) (v : Variable) : Tag := (s.declared? v.name).getD v.tag

/-- The field that loads and stores of a variable use. -/
def fieldFor (s : Scope) (v : Variable) : FieldRef :=
  s.field v.name ((Descriptor.ofTag? (s.storageTag v)).getD Descriptor.placeholder)

/-- The warnings about the name and the tag of a reference. -/
def nameWarnings (s : Scope) (v : Variable) : List Warning :=
  match s.declared? v.name with
  | some declared =>
    if declared ≠ v.tag then [.annotationMismatch v.name declared v.tag v.span] else []
  | none => [.undeclaredVariable v.name v.span]

/-- The warnings of a reference to a variable. -/
def referenceWarnings (s : Scope) (v : Variable) : List Warning :=
  s.nameWarnings v ++ descriptorWarnings v.name (s.storageTag v) v.span

end Scope

/-- The warnings that arise at a site. -/
def Site.warnings (scope : Scope) : Site → List Warning
  | value (.var v) => scope.referenceWarnings v
  | value (.binary op left right _ span) =>
    if (op.arithmeticOr left.tag right.tag).isPlaceholder then
      [.unresolvedOperator op.symbol left.tag right.tag span]
    else []
  | value (.negate operand _ span) =>
    if operand.tag.negationOr.isPlaceholder then [.unresolvedNegation operand.tag span] else []
  | condition (.binary op left right _ span) =>
    if (op.comparisonOr left.tag right.tag).isPlaceholder then
      [.unresolvedComparison op.symbol left.tag right.tag span]
    else []
  | assignment target e span =>
    scope.referenceWarnings target ++
      if e.tag ≠ scope.storageTag target then
        [.assignmentMismatch target.name (scope.storageTag target) e.tag span]
      else []
  | argument index e => if e.tag = .unknown then [.unknownPrintArgument index e.span] else []
  | _ => []

end StackLowering
