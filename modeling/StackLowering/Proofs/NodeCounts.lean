import Mathlib.Algebra.BigOperators.Group.List.Basic
import Mathlib.Algebra.Order.Group.Multiset
import Mathlib.Data.Multiset.Filter
import Mathlib.Tactic.Abel
import StackLowering.Proofs.Fields
import StackLowering.Proofs.LabelDiscipline
import StackLowering.Proofs.Sites

/-!
Nodes and operations. Every node of a tree has a share in the code: the operations that lowering
writes for this node alone. A listing holds what every class has and the share of every node of the
body once, so that operations can be counted in the tree.
-/
namespace StackLowering

open Listing

/-- Operations between which only the operands decide are of one family. It is named by its
placeholder, or by `fcmpl` where reals are compared; any other operation is a family of its own. -/
def Opcode.family : Opcode → Opcode
  | arith _ _ | unresolved => unresolved
  | neg _ | unresolvedNeg => unresolvedNeg
  | ifCompare _ | ifZero _ | unresolvedBranch => unresolvedBranch
  | fcmpl | fcmpg => fcmpl
  | op => op

/-- Whether an operation is a family of its own. -/
def Opcode.isAlone (op : Opcode) : Bool :=
  op.family = op && !op.isPlaceholder && op != fcmpl

theorem Opcode.family_eq_iff {op : Opcode} (h : op.isAlone = true) (o : Opcode) :
    o.family = op ↔ o = op := by
  constructor
  · rintro rfl
    cases o with
    | arith _ _ | neg _ | ifCompare _ | ifZero _ | fcmpg => cases h
    | _ => rfl
  · rintro rfl
    simp only [isAlone, Bool.and_eq_true, decide_eq_true_eq] at h
    exact h.1.1

namespace Listing

/-- The families of the operations of a listing, each as often as it occurs. -/
def families (ls : Listing) : Multiset Opcode := (opcodes ls).map Opcode.family

@[simp] theorem families_nil : families [] = 0 := rfl

@[simp] theorem families_append (a b : Listing) : families (a ++ b) = families a + families b := by
  simp [families]

@[simp] theorem families_instruction (op : Opcode) (operand : Option String) (ls : Listing) :
    families (.instruction op operand :: ls) = {op.family} + families ls := rfl

@[simp] theorem families_branch (op : Opcode) (target : Label) (ls : Listing) :
    families (.branch op target :: ls) = {op.family} + families ls := rfl

/-- The number of operations of a family. -/
def countFamily (ls : Listing) (f : Opcode) : Nat := (opcodes ls).countP (·.family = f)

theorem count_families (ls : Listing) (f : Opcode) : (families ls).count f = countFamily ls f := by
  rw [families, Multiset.coe_count, List.count, List.countP_map]
  rfl

/-- An operation that is a family of its own is counted with its family. -/
theorem countFamily_of_isAlone (ls : Listing) {op : Opcode} (h : op.isAlone = true) :
    countFamily ls op = count ls op := by
  unfold countFamily count List.count
  apply List.countP_congr
  intro o _
  simp [Opcode.family_eq_iff h]

/-- Reals are compared by either of two operations. -/
theorem countFamily_fcmpl (ls : Listing) :
    countFamily ls .fcmpl = count ls .fcmpl + count ls .fcmpg := by
  unfold countFamily count
  induction opcodes ls with
  | nil => rfl
  | cons op ops ih =>
    rw [List.countP_cons, List.count_cons, List.count_cons, ih]
    cases op with
    | fcmpl => simp [Opcode.family]; omega
    | fcmpg => simp [Opcode.family]; omega
    | _ => simp [Opcode.family]

/-- A line without an operation adds nothing. -/
theorem families_of_none {line : Line} (h : line.opcode? = none) (ls : Listing) :
    families (line :: ls) = families ls := by
  unfold families opcodes
  rw [List.filterMap_cons_none h]

@[simp] theorem families_label (l : Label) (ls : Listing) :
    families (.label l :: ls) = families ls := families_of_none rfl ls

theorem families_eq_zero {ls : Listing} (h : ∀ line ∈ ls, line.opcode? = none) :
    families ls = 0 := by
  unfold families opcodes
  rw [List.filterMap_eq_nil_iff.mpr h]
  rfl

end Listing

/-! Sorts of nodes. -/

namespace Expr

/-- A node and the nodes below it. -/
def nodes : Expr → List Expr
  | literal kind text tag span => [literal kind text tag span]
  | var v => [var v]
  | binary op left right tag span => binary op left right tag span :: (left.nodes ++ right.nodes)
  | negate operand tag span => negate operand tag span :: operand.nodes

def isLiteral : Expr → Bool
  | literal _ _ _ _ => true
  | _ => false

def isReference : Expr → Bool
  | var _ => true
  | _ => false

def isArithmetic : Expr → Bool
  | binary (.arithmetic _) _ _ _ _ => true
  | _ => false

def isNegation : Expr → Bool
  | negate _ _ _ => true
  | _ => false

/-- Whether both operands of a node are tagged as reals. -/
def isOfReals : Expr → Bool
  | binary _ left right _ _ => left.tag = .real && right.tag = .real
  | _ => false

end Expr

namespace Stmt

/-- The expressions that stand in a statement, but not in one inside it. -/
def exprs : Stmt → List Expr
  | assign _ value _ => [value]
  | block _ _ => []
  | ifThen cond _ _ | ifElse cond _ _ _ | loop _ cond _ => [cond]
  | print _ args _ => args

def isAssignment : Stmt → Bool
  | assign _ _ _ => true
  | _ => false

def isPrint : Stmt → Bool
  | print _ _ _ => true
  | _ => false

def isIfThen : Stmt → Bool
  | ifThen _ _ _ => true
  | _ => false

def isIfElse : Stmt → Bool
  | ifElse _ _ _ _ => true
  | _ => false

/-- Whether a statement has a condition with two operands that are tagged as reals. -/
def comparesReals : Stmt → Bool
  | ifThen cond _ _ | ifElse cond _ _ _ | loop _ cond _ => cond.isOfReals
  | _ => false

/-- The number of arguments of a print. -/
def argumentCount : Stmt → Nat
  | print _ args _ => args.length
  | _ => 0

end Stmt

mutual

/-- A statement and those inside it. -/
def Stmt.statements : Stmt → List Stmt
  | .assign target value span => [.assign target value span]
  | .block body span => .block body span :: statementsAll body
  | .ifThen cond body span => .ifThen cond body span :: statementsAll body
  | .ifElse cond body alternative span =>
    .ifElse cond body alternative span :: (statementsAll body ++ statementsAll alternative)
  | .loop body cond span => .loop body cond span :: statementsAll body
  | .print format args span => [.print format args span]

/-- Statements and those inside them. -/
def statementsAll : List Stmt → List Stmt
  | [] => []
  | s :: ss => s.statements ++ statementsAll ss

end

/-! The share of nodes in the code, by the numbers of their sorts. -/

/-- The share of expression nodes. A comparison has none: it is the statement with this condition
that jumps. -/
def Expr.census (es : List Expr) : Multiset Opcode :=
  es.countP isLiteral • {.ldc} + es.countP isReference • {.getStatic} +
    es.countP isArithmetic • {.unresolved} + es.countP isNegation • {.unresolvedNeg}

/-- The share of a print beside its arguments. -/
def printShare : Multiset Opcode :=
  {.getStatic} + {.ldc} + {.ldc} + {.anewarray} + {.invokeVirtual} + {.pop}

/-- The share of an argument of a print, beside the code of its value. -/
def argumentShare : Multiset Opcode := {.dup} + {.ldc} + {.invokeStatic} + {.aastore}

/-- The share of a condition's jump. -/
def Expr.jumpShare (e : Expr) : Multiset Opcode :=
  e.isOfReals.toNat • {.fcmpl} + {.unresolvedBranch}

/-- The share of statements, without their expressions. -/
def Stmt.census (ss : List Stmt) : Multiset Opcode :=
  ss.countP isAssignment • {.putStatic} + ss.countP comparesReals • {.fcmpl} +
    (ss.countP isIf + ss.countP isLoop) • {.unresolvedBranch} +
    (ss.countP isIfThen + 2 * ss.countP isIfElse) • {.goto} +
    ss.countP isPrint • printShare + (ss.map argumentCount).sum • argumentShare

/-- The share of statements and of the nodes in their expressions. -/
def treeCensus (ss : List Stmt) : Multiset Opcode :=
  Stmt.census ss + Expr.census (ss.flatMap fun s => s.exprs.flatMap Expr.nodes)

theorem Expr.census_append (a b : List Expr) : census (a ++ b) = census a + census b := by
  simp only [census, List.countP_append, add_nsmul]
  abel

theorem Stmt.census_append (a b : List Stmt) : census (a ++ b) = census a + census b := by
  simp only [census, List.countP_append, List.map_append, List.sum_append, add_nsmul, mul_add]
  abel

theorem treeCensus_nil : treeCensus [] = 0 := rfl

theorem treeCensus_append (a b : List Stmt) :
    treeCensus (a ++ b) = treeCensus a + treeCensus b := by
  simp only [treeCensus, List.flatMap_append, Stmt.census_append, Expr.census_append]
  abel

theorem treeCensus_cons (s : Stmt) (ss : List Stmt) :
    treeCensus (s :: ss) =
      Stmt.census [s] + Expr.census (s.exprs.flatMap Expr.nodes) + treeCensus ss := by
  rw [← List.singleton_append, treeCensus_append, treeCensus, List.flatMap_singleton]

namespace Expr

theorem census_binary (op : Arithmetic) (left right : Expr) (tag : Tag) (span : Span) :
    census (binary (.arithmetic op) left right tag span).nodes =
      {.unresolved} + census left.nodes + census right.nodes := by
  rw [nodes, ← List.singleton_append, census_append, census_append, add_assoc]
  rfl

theorem census_comparison (rel : Relation) (left right : Expr) (tag : Tag) (span : Span) :
    census (binary (.relation rel) left right tag span).nodes =
      census left.nodes + census right.nodes := by
  rw [nodes, ← List.singleton_append, census_append, census_append]
  exact zero_add _

theorem census_negate (operand : Expr) (tag : Tag) (span : Span) :
    census (negate operand tag span).nodes = {.unresolvedNeg} + census operand.nodes := by
  rw [nodes, ← List.singleton_append, census_append]
  rfl

end Expr

namespace Stmt

theorem countP_comparesReals (s : Stmt) : [s].countP comparesReals = s.comparesReals.toNat := by
  cases h : s.comparesReals <;> simp [h]

theorem census_ifThen (cond : Expr) (body : List Stmt) (span : Span) :
    census [ifThen cond body span] = cond.jumpShare + {.goto} := by
  rw [census, countP_comparesReals, comparesReals, Expr.jumpShare]
  cases cond.isOfReals <;> rfl

theorem census_ifElse (cond : Expr) (body alternative : List Stmt) (span : Span) :
    census [ifElse cond body alternative span] = cond.jumpShare + 2 • {.goto} := by
  rw [census, countP_comparesReals, comparesReals, Expr.jumpShare]
  cases cond.isOfReals <;> rfl

theorem census_loop (body : List Stmt) (cond : Expr) (span : Span) :
    census [loop body cond span] = cond.jumpShare := by
  rw [census, countP_comparesReals, comparesReals, Expr.jumpShare]
  cases cond.isOfReals <;> rfl

theorem census_print (format : String) (args : List Expr) (span : Span) :
    census [print format args span] = printShare + args.length • argumentShare := by
  have hargs : ([print format args span].map argumentCount).sum = args.length := Nat.add_zero _
  rw [census, hargs]
  rfl

end Stmt

/-! The code of a tree without defects holds the share of every node once. -/

/-- The jump of a comparison is one of its family, after a comparison of reals if they are
compared. -/
theorem Operator.families_lines (rel : Relation) (left right : Expr) (tag : Tag) (span : Span)
    (target : Label) :
    families (((Operator.relation rel).comparisonOr left.tag right.tag).lines target) =
      (Expr.binary (.relation rel) left right tag span).jumpShare := by
  rw [Expr.jumpShare, Expr.isOfReals]
  cases left.tag <;> cases right.tag <;> cases rel <;> rfl

theorem Operator.family_arithmeticOr (op : Operator) (left right : Tag) :
    (op.arithmeticOr left right).family = .unresolved := by
  cases op <;> cases left <;> cases right <;> rfl

theorem Tag.family_negationOr (tag : Tag) : tag.negationOr.family = .unresolvedNeg := by
  cases tag <;> rfl

namespace Expr

theorem families_code (scope : Scope) {e : Expr} (h : ∀ site ∈ e.sites, site.defect? = none) :
    families (e.code scope) = census e.nodes := by
  induction e with
  | literal kind text tag span => rfl
  | var v => rfl
  | binary op left right tag span ihl ihr =>
    obtain ⟨hself, hoperands⟩ := List.forall_mem_cons.mp h
    obtain ⟨hl, hr⟩ := List.forall_mem_append.mp hoperands
    cases op with
    | relation rel =>
      -- A comparison whose value is asked for is a defect.
      simp [Site.defect?, Operator.isComparison] at hself
    | arithmetic op =>
      simp only [code, families_append, families_instruction, families_nil,
        Operator.family_arithmeticOr, ihl hl, ihr hr, census_binary]
      abel
  | negate operand tag span ih =>
    obtain ⟨-, hoperand⟩ := List.forall_mem_cons.mp h
    simp only [code, families_append, families_instruction, families_nil, Tag.family_negationOr,
      ih hoperand, census_negate]
    abel

/-- A condition holds the share of its nodes and a jump. -/
theorem families_branchCode (scope : Scope) (target : Label) {e : Expr}
    (h : ∀ site ∈ e.conditionSites, site.defect? = none) :
    families (e.branchCode scope target) = e.jumpShare + census e.nodes := by
  obtain ⟨hself, hoperands⟩ := List.forall_mem_cons.mp h
  match e with
  | binary (.relation rel) left right tag span =>
    simp only [operands, List.flatMap_cons, List.flatMap_nil, List.append_nil] at hoperands
    obtain ⟨hl, hr⟩ := List.forall_mem_append.mp hoperands
    simp only [branchCode, families_append, Operator.families_lines rel left right tag span,
      families_code scope hl, families_code scope hr, census_comparison]
    abel
  | binary (.arithmetic op) left right tag span =>
    simp [Site.defect?, isComparison, Operator.isComparison] at hself
  | literal kind text tag span => simp [Site.defect?, isComparison] at hself
  | var v => simp [Site.defect?, isComparison] at hself
  | negate operand tag span => simp [Site.defect?, isComparison] at hself

end Expr

theorem families_argumentsCode (scope : Scope) {args : List Expr} {index : Nat}
    (h : ∀ site ∈ argumentSites index args, site.defect? = none) :
    families (argumentsCode scope index args) =
      args.length • argumentShare + Expr.census (args.flatMap Expr.nodes) := by
  induction args generalizing index with
  | nil => rfl
  | cons arg args ih =>
    obtain ⟨-, hrest⟩ := List.forall_mem_cons.mp h
    obtain ⟨harg, hargs⟩ := List.forall_mem_append.mp hrest
    simp only [argumentsCode, families_append, families_instruction, families_nil, Opcode.family,
      Expr.families_code scope harg, ih hargs, List.length_cons, List.flatMap_cons,
      Expr.census_append, succ_nsmul]
    simp only [argumentShare]
    abel

theorem families_printCode (scope : Scope) (text : String) {args : List Expr}
    (h : ∀ site ∈ argumentSites 0 args, site.defect? = none) :
    families (printCode scope text args) =
      printShare + args.length • argumentShare + Expr.census (args.flatMap Expr.nodes) := by
  simp only [printCode, families_append, families_instruction, families_nil, Opcode.family,
    families_argumentsCode scope h, printShare]
  abel

theorem Scope.families_annotationLines (scope : Scope) (cursor : Cursor) (span : Span) :
    families (scope.annotationLines cursor span) = 0 := by
  apply families_eq_zero
  intro line hline
  obtain ⟨hstill, -, htarget⟩ := annotationLines_still hline
  cases hstill with
  | goto l => cases htarget
  | _ => rfl

mutual

theorem Stmt.families_code (scope : Scope) (cursor : Cursor) {s : Stmt}
    (h : ∀ site ∈ s.sites, site.defect? = none) :
    families (s.code scope cursor) = treeCensus s.statements := by
  cases s with
  | assign target value span =>
    obtain ⟨hv, -⟩ := List.forall_mem_append.mp h
    have hassign : Stmt.census [.assign target value span] = {.putStatic} := rfl
    simp only [Stmt.code, Stmt.statements, treeCensus_cons, treeCensus_nil, families_append,
      families_instruction, families_nil, Opcode.family, Stmt.exprs, List.flatMap_singleton,
      hassign, Expr.families_code scope hv]
    abel
  | block body span =>
    have hblock : Stmt.census [.block body span] = 0 := rfl
    have hexprs : Expr.census [] = 0 := rfl
    simp only [Stmt.code, Stmt.statements, treeCensus_cons, Stmt.exprs, List.flatMap_nil, hblock,
      hexprs, families_codeAll scope cursor h, zero_add]
  | ifThen cond body span =>
    obtain ⟨hc, hb⟩ := List.forall_mem_append.mp h
    simp only [Stmt.code, Stmt.statements, treeCensus_cons, families_append, families_branch,
      families_label, families_nil, Stmt.exprs, List.flatMap_singleton, Stmt.census_ifThen,
      Opcode.family, Expr.families_branchCode scope _ hc, families_codeAll scope _ hb]
    abel
  | ifElse cond body alternative span =>
    obtain ⟨hc, hab⟩ := List.forall_mem_append.mp h
    obtain ⟨ha, hb⟩ := List.forall_mem_append.mp hab
    simp only [Stmt.code, Stmt.statements, treeCensus_cons, treeCensus_append, families_append,
      families_branch, families_label, families_nil, Stmt.exprs, List.flatMap_singleton,
      Stmt.census_ifElse, Opcode.family, Expr.families_branchCode scope _ hc,
      families_codeAll scope _ ha, families_codeAll scope _ hb]
    abel
  | loop body cond span =>
    obtain ⟨hb, hc⟩ := List.forall_mem_append.mp h
    simp only [Stmt.code, Stmt.statements, treeCensus_cons, families_append, families_label,
      families_nil, Stmt.exprs, List.flatMap_singleton, Stmt.census_loop,
      Expr.families_branchCode scope _ hc, families_codeAll scope _ hb]
    abel
  | print format args span =>
    obtain ⟨hformat, hargs⟩ := List.forall_mem_cons.mp h
    obtain ⟨text, ht⟩ := Site.exists_formatText?_of_format hformat
    simp only [Stmt.code, ht, Stmt.statements, treeCensus_cons, treeCensus_nil, Stmt.exprs,
      Stmt.census_print, families_printCode scope text hargs, add_zero]

theorem families_codeAll (scope : Scope) (cursor : Cursor) {ss : List Stmt}
    (h : ∀ site ∈ sitesAll ss, site.defect? = none) :
    families (codeAll scope cursor ss) = treeCensus (statementsAll ss) := by
  cases ss with
  | nil => rfl
  | cons s ss =>
    obtain ⟨hs, hss⟩ := List.forall_mem_append.mp h
    simp only [codeAll, statementsAll, treeCensus_append, families_append,
      Scope.families_annotationLines, s.families_code scope _ hs, families_codeAll scope _ hss,
      zero_add]

end

namespace Program

/-- The statements of a program's body, those inside others included. -/
def statements (p : Program) : List Stmt := statementsAll p.body

/-- The nodes of all expressions of a program's body. -/
def expressions (p : Program) : List Expr :=
  p.statements.flatMap fun s => s.exprs.flatMap Expr.nodes

/-- The number of print arguments in a program's body. -/
def argumentCount (p : Program) : Nat := (p.statements.map Stmt.argumentCount).sum

/-- What every class has: a constructor, the making of two supporting objects, and the report of the
time. -/
def classShare : Multiset Opcode :=
  {.aload0} + {.invokeNonVirtual} + {.ret} +
    2 • ({.new} + {.dup} + {.invokeNonVirtual} + {.putStatic}) +
    ({.getStatic} + {.invokeVirtual} + {.ret})

theorem families_opening (p : Program) (options : Options) :
    families (p.opening options) = {.aload0} + {.invokeNonVirtual} + {.ret} := by
  have hdecls : families (p.decls.flatMap (·.lines options)) = 0 := by
    apply families_eq_zero
    intro line hline
    obtain ⟨d, -, hd⟩ := List.mem_flatMap.mp hline
    rw [Declaration.lines, List.mem_append, List.mem_singleton] at hd
    rcases hd with hd | rfl
    · split at hd
      · simp only [List.mem_cons, List.not_mem_nil, or_false] at hd
        rcases hd with rfl | rfl <;> rfl
      · exact absurd hd List.not_mem_nil
    · rfl
  rw [p.opening_eq]
  simp only [families_append, hdecls]
  rfl

/-- A listing has what every class has and the share of every node of the body. -/
theorem families_listing {p : Program} {options : Options} {u : ClassUnit}
    (h : p.unit options = .ok u) :
    families u.listing =
      classShare + Stmt.census p.statements + Expr.census p.expressions := by
  have hbody := families_codeAll (p.scope options) ⟨0, 0⟩ (p.defect?_eq_none_of_unit h)
  have htree : treeCensus (statementsAll p.body) =
      Stmt.census p.statements + Expr.census p.expressions := rfl
  have hfront : families (p.scope options).prologueCode =
      2 • ({.new} + {.dup} + {.invokeNonVirtual} + {.putStatic}) := rfl
  have hback : families (p.scope options).epilogueCode =
      {.getStatic} + {.invokeVirtual} + {.ret} := rfl
  have hclosing : families (closing options (p.stackLimit options)) = 0 := rfl
  rw [listing_eq h, families_append, families_append, families_opening, hclosing,
    families_of_none rfl, mainCode, families_append, families_append, hfront, hbody, hback]
  rw [htree, classShare]
  abel

/-- Every node of the body is lowered once: literals, references, arithmetic nodes and negations to
one operation each, an assignment to a store, a conditional or a loop to one conditional jump, with
a comparison before it if both operands are tagged as reals, and prints with their arguments to a
fixed number of operations. What is left over makes the supporting objects and reports the time. -/
theorem every_node_lowered_once {p : Program} {options : Options} {u : ClassUnit}
    (h : p.unit options = .ok u) :
    count u.listing .ldc =
        p.expressions.countP Expr.isLiteral + 2 * p.statements.countP Stmt.isPrint +
          p.argumentCount ∧
      count u.listing .getStatic =
        p.expressions.countP Expr.isReference + p.statements.countP Stmt.isPrint + 1 ∧
      count u.listing .putStatic = p.statements.countP Stmt.isAssignment + 2 ∧
      countFamily u.listing .unresolved = p.expressions.countP Expr.isArithmetic ∧
      countFamily u.listing .unresolvedNeg = p.expressions.countP Expr.isNegation ∧
      countFamily u.listing .unresolvedBranch =
        p.statements.countP Stmt.isIf + p.statements.countP Stmt.isLoop ∧
      count u.listing .fcmpl + count u.listing .fcmpg =
        p.statements.countP Stmt.comparesReals ∧
      count u.listing .goto =
        p.statements.countP Stmt.isIfThen + 2 * p.statements.countP Stmt.isIfElse ∧
      count u.listing .anewarray = p.statements.countP Stmt.isPrint ∧
      count u.listing .pop = p.statements.countP Stmt.isPrint ∧
      count u.listing .invokeVirtual = p.statements.countP Stmt.isPrint + 1 ∧
      count u.listing .invokeStatic = p.argumentCount ∧
      count u.listing .aastore = p.argumentCount ∧
      count u.listing .dup = p.argumentCount + 2 := by
  have hcount (f : Opcode) : countFamily u.listing f =
      (classShare + Stmt.census p.statements + Expr.census p.expressions).count f := by
    rw [← families_listing h, count_families]
  -- What has a family of its own can be counted in the shares at once; the rest goes by families.
  have halone (op : Opcode) (ho : op.isAlone = true) : count u.listing op =
      (classShare + Stmt.census p.statements + Expr.census p.expressions).count op := by
    rw [← hcount, countFamily_of_isAlone u.listing ho]
  rw [halone .ldc rfl, halone .getStatic rfl, halone .putStatic rfl, halone .goto rfl,
    halone .anewarray rfl, halone .pop rfl, halone .invokeVirtual rfl, halone .invokeStatic rfl,
    halone .aastore rfl, halone .dup rfl, ← countFamily_fcmpl, hcount, hcount, hcount, hcount]
  simp only [classShare, Stmt.census, Expr.census, printShare, argumentShare, argumentCount,
    Multiset.count_add, Multiset.count_nsmul, Multiset.count_singleton, reduceCtorEq, if_true,
    if_false, mul_zero, mul_one, add_zero, zero_add, true_and]
  omega

/-- `countdown` has five literals and five references, a print with one argument, four assignments,
an alternative that compares reals, and a loop. -/
theorem countdown_every_node_lowered_once :
    ∃ u, countdown.unit {} = .ok u ∧ count u.listing .ldc = 8 ∧ count u.listing .getStatic = 7 ∧
      count u.listing .putStatic = 6 ∧ countFamily u.listing .unresolved = 1 ∧
      countFamily u.listing .unresolvedNeg = 1 ∧ countFamily u.listing .unresolvedBranch = 2 ∧
      count u.listing .fcmpl + count u.listing .fcmpg = 1 ∧ count u.listing .goto = 2 ∧
      count u.listing .anewarray = 1 ∧ count u.listing .pop = 1 ∧
      count u.listing .invokeVirtual = 2 ∧ count u.listing .invokeStatic = 1 ∧
      count u.listing .aastore = 1 ∧ count u.listing .dup = 3 := by
  obtain ⟨u, hu, -⟩ := countdown_unit
  exact ⟨u, hu, every_node_lowered_once hu⟩

end Program

end StackLowering
