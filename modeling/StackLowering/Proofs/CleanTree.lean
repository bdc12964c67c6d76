import StackLowering.Proofs.Alignment
import StackLowering.Proofs.Warnings

/-!
Clean trees. A tree is clean if lowering it neither fails nor warns. Whether it does can be read off
the tree: values are built by arithmetic on operands that share a numeric tag, from literals and
from variables that carry the tag they were declared with, and every part of a statement uses its
values at the tag that it needs.
-/
namespace StackLowering

/-- The tag of a kind of number. -/
def Numeric.tag : Numeric → Tag
  | int => .integer
  | float => .real

namespace Tag

theorem numeric?_eq_some_iff {t : Tag} {n : Numeric} : t.numeric? = some n ↔ t = n.tag := by
  cases t <;> cases n <;> decide

theorem isNumeric_iff {t : Tag} : t.isNumeric = true ↔ ∃ n : Numeric, t = n.tag := by
  simp only [isNumeric, Option.isSome_iff_exists, numeric?_eq_some_iff]

theorem commonNumeric?_isSome_iff {a b : Tag} :
    (commonNumeric? a b).isSome = true ↔ ∃ n : Numeric, a = n.tag ∧ b = n.tag := by
  simp only [Option.isSome_iff_exists, commonNumeric?_eq_some_iff, numeric?_eq_some_iff]

end Tag

@[simp] theorem Operator.arithmeticOr_tag (op : Arithmetic) (n : Numeric) :
    (Operator.arithmetic op).arithmeticOr n.tag n.tag = .arith n op := by
  cases n <;> rfl

@[simp] theorem Operator.comparisonOr_tag (rel : Relation) (n : Numeric) :
    (Operator.relation rel).comparisonOr n.tag n.tag = rel.jump n := by
  cases n <;> rfl

@[simp] theorem Tag.negationOr_tag (n : Numeric) : n.tag.negationOr = .neg n := by
  cases n <;> rfl

namespace Scope

/-- A reference to a variable at the numeric tag that it was declared with. -/
def Holds (s : Scope) (v : Variable) : Prop :=
  s.declared? v.name = some v.tag ∧ v.tag.isNumeric = true

end Scope

namespace Expr

/-- A value that is lowered without a warning. -/
def Clean (scope : Scope) : Expr → Prop
  | literal _ _ _ _ => True
  | var v => scope.Holds v
  | binary (.arithmetic _) left right _ _ =>
    left.Clean scope ∧ right.Clean scope ∧ (Tag.commonNumeric? left.tag right.tag).isSome = true
  | binary (.relation _) _ _ _ _ => False
  | negate operand _ _ => operand.Clean scope ∧ operand.tag.isNumeric = true

/-- A condition that is lowered without a warning. -/
def CleanCondition (scope : Scope) : Expr → Prop
  | binary (.relation _) left right _ _ =>
    left.Clean scope ∧ right.Clean scope ∧ (Tag.commonNumeric? left.tag right.tag).isSome = true
  | _ => False

end Expr

/-- What each part of a statement has to be for lowering to be clean. -/
def cleanParts (scope : Scope) : PartProperty where
  assign target value := value.Clean scope ∧ scope.Holds target ∧ value.tag = target.tag
  cond cond := cond.CleanCondition scope
  print format args := (formatText? format).isSome = true ∧
    ∀ arg ∈ args, arg.Clean scope ∧ arg.tag.isNumeric = true

/-! A tree is clean if each of its sites is. -/

namespace Site

/-- A site whose names and tags fit together. -/
def Fits (scope : Scope) : Site → Prop
  | value (.var v) => scope.Holds v
  | value (.binary (.arithmetic _) left right _ _) =>
    (Tag.commonNumeric? left.tag right.tag).isSome = true
  | value (.negate operand _ _) => operand.tag.isNumeric = true
  | condition (.binary _ left right _ _) => (Tag.commonNumeric? left.tag right.tag).isSome = true
  | assignment target e _ => scope.Holds target ∧ e.tag = target.tag
  | argument _ e => e.tag.isNumeric = true
  | _ => True

/-- A site that is no defect and causes no warning. -/
def Clean (scope : Scope) (site : Site) : Prop := site.defect? = none ∧ site.Fits scope

end Site

theorem descriptorWarnings_eq_nil_iff {name : String} {tag : Tag} {span : Span} :
    descriptorWarnings name tag span = [] ↔ tag.isNumeric = true := by
  cases tag <;> simp [descriptorWarnings, Descriptor.ofTag?, Tag.isNumeric, Tag.numeric?]

theorem Scope.referenceWarnings_eq_nil_iff {scope : Scope} {v : Variable} :
    scope.referenceWarnings v = [] ↔ scope.Holds v := by
  rw [referenceWarnings, List.append_eq_nil_iff, descriptorWarnings_eq_nil_iff, nameWarnings,
    storageTag, Holds]
  cases scope.declared? v.name with
  | none => simp
  | some declared =>
    by_cases heq : declared = v.tag
    · simp [heq]
    · simp [heq]

/-- A site without a defect gives no warning exactly if its names and tags fit together. -/
theorem Site.warnings_eq_nil_iff {scope : Scope} {site : Site} (h : site.defect? = none) :
    site.warnings scope = [] ↔ site.Fits scope := by
  cases site with
  | value e =>
    cases e with
    | literal kind text tag span => exact ⟨fun _ => trivial, fun _ => rfl⟩
    | var v => exact scope.referenceWarnings_eq_nil_iff
    | binary op left right tag span =>
      cases op with
      | arithmetic op =>
        simp [warnings, Fits, Operator.isPlaceholder_arithmeticOr, Option.isSome_iff_ne_none]
      | relation rel => contradiction
    | negate operand tag span => simp [warnings, Fits, Tag.isPlaceholder_negationOr]
  | condition e =>
    cases e with
    | binary op left right tag span =>
      cases op with
      | arithmetic op => contradiction
      | relation rel =>
        simp [warnings, Fits, Operator.isPlaceholder_comparisonOr, Option.isSome_iff_ne_none]
    | _ => contradiction
  | assignment target e span =>
    rw [warnings, List.append_eq_nil_iff, scope.referenceWarnings_eq_nil_iff, Fits]
    refine and_congr_right fun hholds => ?_
    simp [Scope.storageTag, hholds.1]
  | format literal span => exact ⟨fun _ => trivial, fun _ => rfl⟩
  | argument index e =>
    rw [warnings, Fits]
    cases e.tag <;> simp [Tag.isNumeric, Tag.numeric?]

variable {scope : Scope}

namespace Expr

theorem clean_iff_sites {e : Expr} : e.Clean scope ↔ ∀ site ∈ e.sites, site.Clean scope := by
  induction e with
  | literal kind text tag span => simp [Clean, sites, Site.Clean, Site.defect?, Site.Fits]
  | var v => simp [Clean, sites, Site.Clean, Site.defect?, Site.Fits]
  | binary op left right tag span ihl ihr =>
    rw [sites, List.forall_mem_cons, List.forall_mem_append, ← ihl, ← ihr]
    cases op with
    | relation rel => simp [Clean, Site.Clean, Site.defect?, Operator.isComparison]
    | arithmetic op =>
      have hself : (Site.value (binary (.arithmetic op) left right tag span)).Clean scope ↔
          (Tag.commonNumeric? left.tag right.tag).isSome = true := by
        simp [Site.Clean, Site.defect?, Site.Fits, Operator.isComparison]
      rw [hself, Clean]
      tauto
  | negate operand tag span ih =>
    rw [sites, List.forall_mem_cons, ← ih]
    simp [Clean, Site.Clean, Site.defect?, Site.Fits, and_comm]

theorem cleanCondition_iff_sites {e : Expr} :
    e.CleanCondition scope ↔ ∀ site ∈ e.conditionSites, site.Clean scope := by
  rw [conditionSites, List.forall_mem_cons]
  cases e with
  | binary op left right tag span =>
    cases op with
    | relation rel =>
      have hself : (Site.condition (binary (.relation rel) left right tag span)).Clean scope ↔
          (Tag.commonNumeric? left.tag right.tag).isSome = true := by
        simp [Site.Clean, Site.defect?, Site.Fits, isComparison, Operator.isComparison]
      simp only [hself, operands, List.flatMap_cons, List.flatMap_nil, List.append_nil,
        List.forall_mem_append, ← clean_iff_sites, CleanCondition]
      tauto
    | arithmetic op =>
      simp [CleanCondition, Site.Clean, Site.defect?, isComparison, Operator.isComparison]
  | literal kind text tag span => simp [CleanCondition, Site.Clean, Site.defect?, isComparison]
  | var v => simp [CleanCondition, Site.Clean, Site.defect?, isComparison]
  | negate operand tag span => simp [CleanCondition, Site.Clean, Site.defect?, isComparison]

end Expr

theorem clean_arguments_iff_sites {index : Nat} {args : List Expr} :
    (∀ arg ∈ args, arg.Clean scope ∧ arg.tag.isNumeric = true) ↔
      ∀ site ∈ argumentSites index args, site.Clean scope := by
  induction args generalizing index with
  | nil => simp [argumentSites]
  | cons arg args ih =>
    rw [List.forall_mem_cons, argumentSites, List.forall_mem_cons, List.forall_mem_append, ← ih,
      ← Expr.clean_iff_sites]
    simp [Site.Clean, Site.defect?, Site.Fits, and_assoc, and_left_comm]

mutual

theorem Stmt.every_clean_iff_sites (scope : Scope) (s : Stmt) :
    s.Every (cleanParts scope) ↔ ∀ site ∈ s.sites, site.Clean scope := by
  cases s with
  | assign target value span =>
    rw [Stmt.sites, List.forall_mem_append, List.forall_mem_singleton, ← Expr.clean_iff_sites]
    simp [Stmt.Every, cleanParts, Site.Clean, Site.defect?, Site.Fits]
  | block body span => exact everyPart_clean_iff_sites scope body
  | ifThen cond body span =>
    rw [Stmt.sites, List.forall_mem_append, ← Expr.cleanCondition_iff_sites,
      ← everyPart_clean_iff_sites scope body]
    rfl
  | ifElse cond body alternative span =>
    rw [Stmt.sites, List.forall_mem_append, List.forall_mem_append,
      ← Expr.cleanCondition_iff_sites, ← everyPart_clean_iff_sites scope alternative,
      ← everyPart_clean_iff_sites scope body]
    rfl
  | loop body cond span =>
    rw [Stmt.sites, List.forall_mem_append, ← Expr.cleanCondition_iff_sites,
      ← everyPart_clean_iff_sites scope body]
    rfl
  | print format args span =>
    rw [Stmt.sites, List.forall_mem_cons, ← clean_arguments_iff_sites]
    simp [Stmt.Every, cleanParts, Site.Clean, Site.defect?, Site.Fits, isSome_formatText?_iff]

theorem everyPart_clean_iff_sites (scope : Scope) (ss : List Stmt) :
    EveryPart (cleanParts scope) ss ↔ ∀ site ∈ sitesAll ss, site.Clean scope := by
  cases ss with
  | nil => simp [EveryPart, sitesAll]
  | cons s ss =>
    rw [sitesAll, List.forall_mem_append, ← s.every_clean_iff_sites scope,
      ← everyPart_clean_iff_sites scope ss]
    rfl

end

/-- The body of a program without warnings is clean in all its parts. -/
theorem Program.everyPart_clean {p : Program} {options : Options} {u : ClassUnit}
    (h : p.unit options = .ok u) (hw : u.warnings = []) :
    EveryPart (cleanParts (p.scope options)) p.body := by
  have hd := defect?_eq_none_of_unit h
  rw [warnings_unit h, warnings, List.append_eq_nil_iff, List.flatMap_eq_nil_iff] at hw
  refine (everyPart_clean_iff_sites _ _).mpr fun site hsite => ⟨hd site hsite, ?_⟩
  exact (Site.warnings_eq_nil_iff (hd site hsite)).mp
    (hw.2 site ((exitsAll_perm p.body).mem_iff.mpr hsite))

end StackLowering
