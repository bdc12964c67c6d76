import StackLowering.Proofs.FieldAccess
import StackLowering.Proofs.StackNeed

/-!
Trees without positions. Taking the spans from a tree changes where its defects and its warnings
arise and nothing else about them, and leaves of its code the lines that have a meaning to the
machine: no statement of such a tree moves to a source line, so nothing is echoed.
-/
namespace StackLowering

def Variable.unplaced (v : Variable) : Variable := { v with span := .nowhere }

def Declaration.unplaced (d : Declaration) : Declaration := { d with span := .nowhere }

/-- An expression without its positions. -/
def Expr.unplaced : Expr → Expr
  | literal kind text tag _ => literal kind text tag .nowhere
  | var v => var v.unplaced
  | binary op left right tag _ => binary op left.unplaced right.unplaced tag .nowhere
  | negate operand tag _ => negate operand.unplaced tag .nowhere

mutual

/-- A statement without its positions. -/
def Stmt.unplaced : Stmt → Stmt
  | .assign target value _ => .assign target.unplaced value.unplaced .nowhere
  | .block body _ => .block (unplacedAll body) .nowhere
  | .ifThen cond body _ => .ifThen cond.unplaced (unplacedAll body) .nowhere
  | .ifElse cond body alternative _ =>
    .ifElse cond.unplaced (unplacedAll body) (unplacedAll alternative) .nowhere
  | .loop body cond _ => .loop (unplacedAll body) cond.unplaced .nowhere
  | .print format args _ => .print format (args.map Expr.unplaced) .nowhere

def unplacedAll : List Stmt → List Stmt
  | [] => []
  | s :: ss => s.unplaced :: unplacedAll ss

end

/-- A program without positions and without its source text. -/
def Program.unplaced (p : Program) : Program where
  name := p.name
  decls := p.decls.map Declaration.unplaced
  body := unplacedAll p.body
  span := .nowhere

def Site.unplaced : Site → Site
  | value e => value e.unplaced
  | condition e => condition e.unplaced
  | assignment target e _ => assignment target.unplaced e.unplaced .nowhere
  | format literal _ => format literal .nowhere
  | argument index e => argument index e.unplaced

/-- What a defect says apart from where it stands. -/
def Defect.unplaced : Defect → Defect
  | comparisonOutsideCondition symbol _ => comparisonOutsideCondition symbol .nowhere
  | nonRelationalCondition _ => nonRelationalCondition .nowhere
  | malformedFormat literal _ => malformedFormat literal .nowhere

/-- What a warning says apart from where it arose. -/
def Warning.unplaced : Warning → Warning
  | unresolvedOperator symbol left right _ => unresolvedOperator symbol left right .nowhere
  | unresolvedComparison symbol left right _ => unresolvedComparison symbol left right .nowhere
  | unresolvedNegation operand _ => unresolvedNegation operand .nowhere
  | unknownDescriptor name _ => unknownDescriptor name .nowhere
  | assignmentMismatch name target value _ => assignmentMismatch name target value .nowhere
  | undeclaredVariable name _ => undeclaredVariable name .nowhere
  | annotationMismatch name declared annotated _ =>
    annotationMismatch name declared annotated .nowhere
  | duplicateDeclaration name _ => duplicateDeclaration name .nowhere
  | unknownPrintArgument index _ => unknownPrintArgument index .nowhere

@[simp] theorem Expr.tag_unplaced (e : Expr) : e.unplaced.tag = e.tag := by cases e <;> rfl

@[simp] theorem Expr.isComparison_unplaced (e : Expr) :
    e.unplaced.isComparison = e.isComparison := by cases e <;> rfl

@[simp] theorem Expr.span_unplaced (e : Expr) : e.unplaced.span = .nowhere := by cases e <;> rfl

@[simp] theorem Stmt.span_unplaced (s : Stmt) : s.unplaced.span = .nowhere := by
  cases s <;> rw [unplaced] <;> rfl

theorem Expr.operands_unplaced (e : Expr) :
    e.unplaced.operands = e.operands.map Expr.unplaced := by cases e <;> rfl

/-! Sites and exits. -/

namespace Expr

theorem sites_unplaced (e : Expr) : e.unplaced.sites = e.sites.map Site.unplaced := by
  induction e with
  | literal kind text tag span => rfl
  | var v => rfl
  | binary op left right tag span ihl ihr => simp [unplaced, sites, Site.unplaced, ihl, ihr]
  | negate operand tag span ih => simp [unplaced, sites, Site.unplaced, ih]

theorem exits_unplaced (e : Expr) : e.unplaced.exits = e.exits.map Site.unplaced := by
  induction e with
  | literal kind text tag span => rfl
  | var v => rfl
  | binary op left right tag span ihl ihr => simp [unplaced, exits, Site.unplaced, ihl, ihr]
  | negate operand tag span ih => simp [unplaced, exits, Site.unplaced, ih]

theorem conditionSites_unplaced (e : Expr) :
    e.unplaced.conditionSites = e.conditionSites.map Site.unplaced := by
  simp [conditionSites, operands_unplaced, List.flatMap_map, List.map_flatMap, sites_unplaced,
    Site.unplaced]

theorem conditionExits_unplaced (e : Expr) :
    e.unplaced.conditionExits = e.conditionExits.map Site.unplaced := by
  simp [conditionExits, operands_unplaced, List.flatMap_map, List.map_flatMap, exits_unplaced,
    Site.unplaced]

end Expr

theorem argumentSites_unplaced (index : Nat) (args : List Expr) :
    argumentSites index (args.map Expr.unplaced) =
      (argumentSites index args).map Site.unplaced := by
  induction args generalizing index with
  | nil => rfl
  | cons arg args ih => simp [argumentSites, Site.unplaced, Expr.sites_unplaced, ih]

theorem argumentExits_unplaced (index : Nat) (args : List Expr) :
    argumentExits index (args.map Expr.unplaced) =
      (argumentExits index args).map Site.unplaced := by
  induction args generalizing index with
  | nil => rfl
  | cons arg args ih => simp [argumentExits, Site.unplaced, Expr.exits_unplaced, ih]

mutual

theorem Stmt.sites_unplaced (s : Stmt) : s.unplaced.sites = s.sites.map Site.unplaced := by
  cases s with
  | assign target value span =>
    simp [Stmt.unplaced, Stmt.sites, Site.unplaced, Expr.sites_unplaced]
  | block body span => simp [Stmt.unplaced, Stmt.sites, sitesAll_unplaced body]
  | ifThen cond body span =>
    simp [Stmt.unplaced, Stmt.sites, Expr.conditionSites_unplaced, sitesAll_unplaced body]
  | ifElse cond body alternative span =>
    simp [Stmt.unplaced, Stmt.sites, Expr.conditionSites_unplaced, sitesAll_unplaced body,
      sitesAll_unplaced alternative]
  | loop body cond span =>
    simp [Stmt.unplaced, Stmt.sites, Expr.conditionSites_unplaced, sitesAll_unplaced body]
  | print format args span =>
    simp [Stmt.unplaced, Stmt.sites, Site.unplaced, argumentSites_unplaced]

theorem sitesAll_unplaced (ss : List Stmt) :
    sitesAll (unplacedAll ss) = (sitesAll ss).map Site.unplaced := by
  cases ss with
  | nil => rfl
  | cons s ss => simp [unplacedAll, sitesAll, Stmt.sites_unplaced s, sitesAll_unplaced ss]

end

mutual

theorem Stmt.exits_unplaced (s : Stmt) : s.unplaced.exits = s.exits.map Site.unplaced := by
  cases s with
  | assign target value span =>
    simp [Stmt.unplaced, Stmt.exits, Site.unplaced, Expr.exits_unplaced]
  | block body span => simp [Stmt.unplaced, Stmt.exits, exitsAll_unplaced body]
  | ifThen cond body span =>
    simp [Stmt.unplaced, Stmt.exits, Expr.conditionExits_unplaced, exitsAll_unplaced body]
  | ifElse cond body alternative span =>
    simp [Stmt.unplaced, Stmt.exits, Expr.conditionExits_unplaced, exitsAll_unplaced body,
      exitsAll_unplaced alternative]
  | loop body cond span =>
    simp [Stmt.unplaced, Stmt.exits, Expr.conditionExits_unplaced, exitsAll_unplaced body]
  | print format args span =>
    simp [Stmt.unplaced, Stmt.exits, Site.unplaced, argumentExits_unplaced]

theorem exitsAll_unplaced (ss : List Stmt) :
    exitsAll (unplacedAll ss) = (exitsAll ss).map Site.unplaced := by
  cases ss with
  | nil => rfl
  | cons s ss => simp [unplacedAll, exitsAll, Stmt.exits_unplaced s, exitsAll_unplaced ss]

end

theorem Site.defect?_unplaced (site : Site) :
    site.unplaced.defect? = site.defect?.map Defect.unplaced := by
  cases site with
  | value e =>
    cases e with
    | binary op left right tag span =>
      simp only [unplaced, Expr.unplaced, defect?]
      split <;> rfl
    | _ => rfl
  | condition e =>
    simp only [unplaced, defect?, Expr.isComparison_unplaced, Expr.span_unplaced]
    split <;> rfl
  | format literal span =>
    simp only [unplaced, defect?]
    split <;> rfl
  | _ => rfl

/-- Without positions a program has the same first defect, which stands nowhere. -/
theorem Program.findSome?_defect?_unplaced (p : Program) :
    p.unplaced.sites.findSome? Site.defect? =
      (p.sites.findSome? Site.defect?).map Defect.unplaced := by
  rw [sites, unplaced, sitesAll_unplaced, List.findSome?_map, List.map_findSome?]
  exact congrArg (List.findSome? · (sitesAll p.body)) (funext Site.defect?_unplaced)

/-! The scope, and the warnings. -/

namespace Scope

/-- A scope without its source text and with the default options. -/
def bare (s : Scope) : Scope := { s with source := none, options := {} }

@[simp] theorem prologueCode_bare (s : Scope) : s.bare.prologueCode = s.prologueCode := rfl

@[simp] theorem epilogueCode_bare (s : Scope) : s.bare.epilogueCode = s.epilogueCode := rfl

@[simp] theorem storageTag_unplaced (s : Scope) (v : Variable) :
    s.bare.storageTag v.unplaced = s.storageTag v := rfl

@[simp] theorem fieldFor_unplaced (s : Scope) (v : Variable) :
    s.bare.fieldFor v.unplaced = s.fieldFor v := rfl

theorem declare_unplaced (s : Scope) (d : Declaration) :
    s.bare.declare d.unplaced = (s.declare d).bare := by
  have hsame : s.bare.declared? d.unplaced.name = s.declared? d.name := rfl
  unfold declare
  rw [hsame]
  cases s.declared? d.name <;> rfl

theorem declareAll_unplaced (s : Scope) (ds : List Declaration) :
    s.bare.declareAll (ds.map Declaration.unplaced) = (s.declareAll ds).bare := by
  induction ds generalizing s with
  | nil => rfl
  | cons d ds ih =>
    change (s.bare.declare d.unplaced).declareAll (ds.map Declaration.unplaced) = _
    rw [declare_unplaced]
    exact ih (s.declare d)

end Scope

/-- A warning that may be left out. -/
theorem map_unplaced_ite (c : Prop) [Decidable c] (w : Warning) :
    (if c then [w] else []).map Warning.unplaced = if c then [w.unplaced] else [] := by
  split <;> rfl

theorem descriptorWarnings_unplaced (name : String) (tag : Tag) (span : Span) :
    descriptorWarnings name tag .nowhere =
      (descriptorWarnings name tag span).map Warning.unplaced := by
  rw [descriptorWarnings, descriptorWarnings, map_unplaced_ite]
  rfl

theorem Scope.referenceWarnings_unplaced (s : Scope) (v : Variable) :
    s.bare.referenceWarnings v.unplaced = (s.referenceWarnings v).map Warning.unplaced := by
  have hname : s.bare.nameWarnings v.unplaced = (s.nameWarnings v).map Warning.unplaced := by
    have hsame : s.bare.declared? v.unplaced.name = s.declared? v.name := rfl
    unfold nameWarnings
    rw [hsame]
    cases s.declared? v.name with
    | none => rfl
    | some declared =>
      simp only [map_unplaced_ite]
      rfl
  rw [referenceWarnings, referenceWarnings, List.map_append, hname, storageTag_unplaced,
    ← descriptorWarnings_unplaced]
  rfl

theorem Site.warnings_unplaced (scope : Scope) (site : Site) :
    site.unplaced.warnings scope.bare = (site.warnings scope).map Warning.unplaced := by
  cases site with
  | value e =>
    cases e with
    | literal kind text tag span => rfl
    | var v => exact scope.referenceWarnings_unplaced v
    | binary op left right tag span =>
      simp only [unplaced, Expr.unplaced, warnings, Expr.tag_unplaced, map_unplaced_ite,
        Warning.unplaced]
    | negate operand tag span =>
      simp only [unplaced, Expr.unplaced, warnings, Expr.tag_unplaced, map_unplaced_ite,
        Warning.unplaced]
  | condition e =>
    cases e with
    | binary op left right tag span =>
      simp only [unplaced, Expr.unplaced, warnings, Expr.tag_unplaced, map_unplaced_ite,
        Warning.unplaced]
    | _ => rfl
  | assignment target e span =>
    simp only [unplaced, warnings, List.map_append, map_unplaced_ite, Warning.unplaced,
      scope.referenceWarnings_unplaced, scope.storageTag_unplaced, Expr.tag_unplaced]
    rfl
  | format literal span => rfl
  | argument index e =>
    simp only [unplaced, warnings, Expr.tag_unplaced, Expr.span_unplaced, map_unplaced_ite,
      Warning.unplaced]

theorem declarationWarnings_unplaced (scope : Scope) (ds : List Declaration) :
    declarationWarnings scope.bare (ds.map Declaration.unplaced) =
      (declarationWarnings scope ds).map Warning.unplaced := by
  induction ds generalizing scope with
  | nil => rfl
  | cons d ds ih =>
    simp only [List.map_cons, declarationWarnings, List.map_append, map_unplaced_ite,
      Warning.unplaced, ← descriptorWarnings_unplaced, scope.declare_unplaced, ih]
    rfl

namespace Program

theorem scope_unplaced (p : Program) (options : Options) :
    p.unplaced.scope {} = (p.scope options).bare :=
  (Scope.ofProgram options p).declareAll_unplaced p.decls

/-- Without positions a program has the same warnings, which arise nowhere. -/
theorem warnings_unplaced (p : Program) (options : Options) :
    p.unplaced.warnings {} = (p.warnings options).map Warning.unplaced := by
  have hdecls : declarationWarnings (Scope.ofProgram {} p.unplaced) p.unplaced.decls =
      (declarationWarnings (Scope.ofProgram options p) p.decls).map Warning.unplaced :=
    declarationWarnings_unplaced (Scope.ofProgram options p) p.decls
  have hexits : p.unplaced.exits = p.exits.map Site.unplaced := exitsAll_unplaced p.body
  rw [warnings, warnings, hdecls, hexits, p.scope_unplaced options, List.flatMap_map,
    List.map_append, List.map_flatMap]
  simp only [Site.warnings_unplaced]

theorem fieldLines_unplaced (p : Program) : p.unplaced.fieldLines = p.fieldLines := by
  simp only [fieldLines, unplaced, List.map_map]
  rfl

end Program

/-! The code. -/

/-- Whether the machine acts on a line or jumps to it. -/
def Line.isCode : Line → Bool
  | label _ | instruction _ _ | branch _ _ => true
  | _ => false

/-- Whether a line is a remark: a comment, a blank line, or the number of a source line. -/
def Line.isRemark : Line → Bool
  | comment _ | blank => true
  | directive text => ".line ".toList.isPrefixOf text.toList
  | _ => false

namespace Expr

theorem code_unplaced (scope : Scope) (e : Expr) :
    e.unplaced.code scope.bare = e.code scope := by
  induction e with
  | literal kind text tag span => rfl
  | var v => rfl
  | binary op left right tag span ihl ihr => simp only [unplaced, code, ihl, ihr, tag_unplaced]
  | negate operand tag span ih => simp only [unplaced, code, ih, tag_unplaced]

theorem branchCode_unplaced (scope : Scope) (target : Label) (e : Expr) :
    e.unplaced.branchCode scope.bare target = e.branchCode scope target := by
  cases e with
  | binary op left right tag span =>
    simp only [unplaced, branchCode, code_unplaced, tag_unplaced]
  | _ => rfl

end Expr

theorem argumentsCode_unplaced (scope : Scope) (index : Nat) (args : List Expr) :
    argumentsCode scope.bare index (args.map Expr.unplaced) = argumentsCode scope index args := by
  induction args generalizing index with
  | nil => rfl
  | cons arg args ih =>
    simp only [List.map_cons, argumentsCode, Expr.code_unplaced, Expr.tag_unplaced, ih]

theorem printCode_unplaced (scope : Scope) (text : String) (args : List Expr) :
    printCode scope.bare text (args.map Expr.unplaced) = printCode scope text args := by
  simp only [printCode, argumentsCode_unplaced, List.length_map]

theorem filter_isCode_of_operates {ls : List Line} (h : ∀ line ∈ ls, line.Operates) :
    ls.filter Line.isCode = ls := by
  apply List.filter_eq_self.mpr
  intro line hm
  obtain ⟨op, hop, -⟩ := h line hm
  cases line with
  | instruction op operand => rfl
  | branch op target => rfl
  | _ => contradiction

theorem Expr.filter_branchCode (scope : Scope) (target : Label) (e : Expr) :
    (e.branchCode scope target).filter Line.isCode = e.branchCode scope target :=
  filter_isCode_of_operates fun _ => operates_of_mem_branchCode

theorem Scope.isRemark_of_mem {scope : Scope} {cursor : Cursor} {span : Span} {line : Line}
    (h : line ∈ scope.annotationLines cursor span) : line.isRemark = true := by
  obtain ⟨hstill, hlabel, hbranch⟩ := annotationLines_still h
  cases hstill with
  | lineDirective n =>
    apply List.isPrefixOf_iff_prefix.mpr
    change _ <+: (".line " ++ toString n).toList
    rw [String.toList_append]
    exact List.prefix_append _ _
  | comment text => rfl
  | blank => rfl
  | label l => contradiction
  | goto l => contradiction

theorem Scope.filter_annotationLines (scope : Scope) (cursor : Cursor) (span : Span) :
    (scope.annotationLines cursor span).filter Line.isCode = [] := by
  apply List.filter_eq_nil_iff.mpr
  intro line hm hcode
  have hremark := isRemark_of_mem hm
  cases line <;> contradiction

namespace Cursor

def unplaced (c : Cursor) : Cursor := { c with line := 0 }

@[simp] theorem unplaced_moveTo (c : Cursor) (span : Span) :
    (c.moveTo span).unplaced = c.unplaced := by
  unfold moveTo
  split <;> rfl

@[simp] theorem moveTo_nowhere (c : Cursor) : c.moveTo .nowhere = c := if_neg fun h => nomatch h.1

end Cursor

theorem Scope.annotationLines_nowhere (scope : Scope) (c : Cursor) :
    scope.annotationLines c .nowhere = [] := if_neg fun h => nomatch h.1

mutual

theorem Stmt.after_unplaced (cursor : Cursor) (s : Stmt) :
    s.unplaced.after cursor.unplaced = (s.after cursor).unplaced := by
  cases s with
  | assign target value span => rfl
  | block body span => exact afterAll_unplaced cursor body
  | ifThen cond body span => exact afterAll_unplaced (cursor.skip 3) body
  | ifElse cond body alternative span =>
    rw [Stmt.unplaced, Stmt.after, Stmt.after, ← afterAll_unplaced, ← afterAll_unplaced]
    rfl
  | loop body cond span => exact afterAll_unplaced (cursor.skip 1) body
  | print format args span => rfl

theorem afterAll_unplaced (cursor : Cursor) (ss : List Stmt) :
    afterAll cursor.unplaced (unplacedAll ss) = (afterAll cursor ss).unplaced := by
  cases ss with
  | nil => rfl
  | cons s ss =>
    rw [unplacedAll, afterAll, afterAll, Stmt.span_unplaced, Cursor.moveTo_nowhere,
      ← afterAll_unplaced, ← Stmt.after_unplaced, Cursor.unplaced_moveTo]

end

mutual

theorem Stmt.code_unplaced (scope : Scope) (cursor : Cursor) (s : Stmt) :
    s.unplaced.code scope.bare cursor.unplaced = (s.code scope cursor).filter Line.isCode := by
  cases s with
  | assign target value span =>
    rw [Stmt.unplaced, Stmt.code, Stmt.code, Expr.code_unplaced, List.filter_append,
      filter_isCode_of_operates fun line => Expr.operates_of_mem_code]
    rfl
  | block body span => exact codeAll_unplaced scope cursor body
  | ifThen cond body span =>
    have hbody := codeAll_unplaced scope (cursor.skip 3) body
    simp only [Stmt.unplaced, Stmt.code, List.filter_append, Expr.filter_branchCode, ← hbody,
      Expr.branchCode_unplaced]
    rfl
  | ifElse cond body alternative span =>
    have halternative := codeAll_unplaced scope (cursor.skip 3) alternative
    have hbody := codeAll_unplaced scope (afterAll (cursor.skip 3) alternative) body
    have hafter := afterAll_unplaced (cursor.skip 3) alternative
    simp only [Stmt.unplaced, Stmt.code, List.filter_append, Expr.filter_branchCode, ← hbody,
      ← halternative, Expr.branchCode_unplaced, ← hafter]
    rfl
  | loop body cond span =>
    have hbody := codeAll_unplaced scope (cursor.skip 1) body
    simp only [Stmt.unplaced, Stmt.code, List.filter_append, Expr.filter_branchCode, ← hbody,
      Expr.branchCode_unplaced]
    rfl
  | print format args span =>
    rw [Stmt.unplaced, Stmt.code, Stmt.code]
    cases formatText? format with
    | none => rfl
    | some text =>
      simp only [printCode_unplaced]
      exact (filter_isCode_of_operates fun line => operates_of_mem_printCode).symm

/-- Without positions, statements have the code of their lines and no echo. -/
theorem codeAll_unplaced (scope : Scope) (cursor : Cursor) (ss : List Stmt) :
    codeAll scope.bare cursor.unplaced (unplacedAll ss) =
      (codeAll scope cursor ss).filter Line.isCode := by
  cases ss with
  | nil => rfl
  | cons s ss =>
    -- Nowhere is no line to move to: the cursor stays, and nothing is echoed.
    rw [unplacedAll, codeAll, codeAll, List.filter_append, List.filter_append,
      scope.filter_annotationLines, Stmt.span_unplaced, Cursor.moveTo_nowhere,
      Scope.annotationLines_nowhere, ← Stmt.code_unplaced, ← codeAll_unplaced,
      ← Stmt.after_unplaced, Cursor.unplaced_moveTo]

end

/-- Without positions the main method of a program has the same code. -/
theorem Program.filter_mainCode_unplaced (p : Program) (options : Options) :
    (p.unplaced.mainCode {}).filter Line.isCode = (p.mainCode options).filter Line.isCode := by
  have hbody := codeAll_unplaced (p.scope options) ⟨0, 0⟩ p.body
  have hmain : p.unplaced.mainCode {} = (p.scope options).prologueCode ++
      (codeAll (p.scope options) ⟨0, 0⟩ p.body).filter Line.isCode ++
      (p.scope options).epilogueCode := by
    rw [mainCode, p.scope_unplaced options, ← hbody, Scope.prologueCode_bare,
      Scope.epilogueCode_bare]
    rfl
  rw [hmain, mainCode]
  simp only [List.filter_append, List.filter_filter, Bool.and_self]

/-! The operand stack. -/

theorem Expr.need_unplaced (e : Expr) : e.unplaced.need = e.need := by
  induction e with
  | literal kind text tag span => rfl
  | var v => rfl
  | binary op left right tag span ihl ihr => rw [unplaced, need, need, ihl, ihr]
  | negate operand tag span ih => exact ih

theorem largestNeed_unplaced (args : List Expr) :
    largestNeed (args.map Expr.unplaced) = largestNeed args := by
  rw [largestNeed, largestNeed, List.map_map]
  exact congrArg (fun f => (args.map f).foldr max 0) (funext Expr.need_unplaced)

mutual

theorem Stmt.need_unplaced (s : Stmt) : s.unplaced.need = s.need := by
  cases s with
  | assign target value span => exact value.need_unplaced
  | block body span => exact needAll_unplaced body
  | ifThen cond body span =>
    rw [Stmt.unplaced, Stmt.need, Stmt.need, cond.need_unplaced, needAll_unplaced body]
  | ifElse cond body alternative span =>
    rw [Stmt.unplaced, Stmt.need, Stmt.need, cond.need_unplaced, needAll_unplaced body,
      needAll_unplaced alternative]
  | loop body cond span =>
    rw [Stmt.unplaced, Stmt.need, Stmt.need, cond.need_unplaced, needAll_unplaced body]
  | print format args span =>
    rw [Stmt.unplaced, Stmt.need, Stmt.need, largestNeed_unplaced, List.isEmpty_map]

theorem needAll_unplaced (ss : List Stmt) : needAll (unplacedAll ss) = needAll ss := by
  cases ss with
  | nil => rfl
  | cons s ss => rw [unplacedAll, needAll, needAll, Stmt.need_unplaced s, needAll_unplaced ss]

end

end StackLowering
