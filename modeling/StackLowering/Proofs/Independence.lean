import StackLowering.Proofs.Failure
import StackLowering.Proofs.Positions

/-!
What the code of a class does not depend on. Options, positions and the source text decide about
names outside the main method, about limits and about remarks. Two programs that differ in nothing
else fail together or have the same code, the same fields and the same need of the stack; and
options that ask for fewer remarks take some out of the listing and change nothing more.
-/
namespace StackLowering

open Listing

/-- The options with remarks of a sort only where they were asked for before and still are. -/
def Options.thinned (options : Options) (comments directives : Bool) : Options :=
  { options with
    sourceComments := options.sourceComments && comments
    lineDirectives := options.lineDirectives && directives }

namespace Listing

/-- The lines `ls` are left of `ms` when some remarks are taken out. -/
structure Thins (ls ms : List Line) : Prop where
  sublist : ls.Sublist ms
  others : ls.filter (!·.isRemark) = ms.filter (!·.isRemark)

namespace Thins

variable {ls ms ks ns : List Line}

theorem refl (ls : List Line) : Thins ls ls := ⟨.refl ls, rfl⟩

theorem append (h : Thins ls ms) (k : Thins ks ns) : Thins (ls ++ ks) (ms ++ ns) := by
  refine ⟨h.sublist.append k.sublist, ?_⟩
  rw [List.filter_append, List.filter_append, h.others, k.others]

/-- Lines may be taken out if all of them are remarks. -/
theorem of_remarks (h : ls.Sublist ms) (ha : ∀ line ∈ ms, line.isRemark = true) :
    Thins ls ms := by
  have hnone : ∀ ks : List Line, ks.Sublist ms → ks.filter (!·.isRemark) = [] := by
    intro ks hks
    apply List.filter_eq_nil_iff.mpr
    intro line hm
    simp [ha line (hks.subset hm)]
  exact ⟨h, (hnone ls h).trans (hnone ms (.refl ms)).symm⟩

end Thins

end Listing

namespace Scope

theorem echoLines_sublist {s t : Scope} {comments directives : Bool} (hs : t.source = s.source)
    (ho : t.options = s.options.thinned comments directives) (n : UInt32) :
    (t.echoLines n).Sublist (s.echoLines n) := by
  unfold echoLines sourceLine?
  rw [hs, ho]
  apply List.Sublist.append
  · cases hc : s.options.sourceComments <;> cases comments <;>
      simp [Options.thinned, hc]
  · cases hd : s.options.lineDirectives <;> cases directives <;>
      simp [Options.thinned, hd]

theorem annotationLines_thins {s t : Scope} (comments directives : Bool)
    (hs : t.source = s.source) (ho : t.options = s.options.thinned comments directives)
    (cursor : Cursor) (span : Span) :
    Thins (t.annotationLines cursor span) (s.annotationLines cursor span) := by
  apply Thins.of_remarks
  · unfold annotationLines
    split
    · exact echoLines_sublist hs ho span.line
    · exact .refl _
  · exact fun line => isRemark_of_mem

end Scope

/-! Scopes that differ in their source text and their options only give the same code. -/

section SameNames

variable {s t : Scope}

theorem Expr.code_eq_of_bare (h : t.bare = s.bare) (e : Expr) : e.code t = e.code s := by
  rw [← code_unplaced, h, code_unplaced]

theorem Expr.branchCode_eq_of_bare (h : t.bare = s.bare) (target : Label) (e : Expr) :
    e.branchCode t target = e.branchCode s target := by
  rw [← branchCode_unplaced, h, branchCode_unplaced]

theorem printCode_eq_of_bare (h : t.bare = s.bare) (text : String) (args : List Expr) :
    printCode t text args = printCode s text args := by
  rw [← printCode_unplaced, h, printCode_unplaced]

theorem Scope.fieldFor_eq_of_bare (h : t.bare = s.bare) (v : Variable) :
    t.fieldFor v = s.fieldFor v := by
  rw [← fieldFor_unplaced, h, fieldFor_unplaced]

/-- The scope `t` names everything as `s` does, and echoes a part of what `s` echoes. -/
structure Scope.Thins (t s : Scope) : Prop where
  bare : t.bare = s.bare
  annotationLines : ∀ cursor span,
    Listing.Thins (t.annotationLines cursor span) (s.annotationLines cursor span)

mutual

theorem Stmt.code_thins (h : t.Thins s) (cursor : Cursor) (stmt : Stmt) :
    Listing.Thins (stmt.code t cursor) (stmt.code s cursor) := by
  cases stmt with
  | assign target value span =>
    rw [Stmt.code, Stmt.code, Expr.code_eq_of_bare h.bare, Scope.fieldFor_eq_of_bare h.bare]
    exact .refl _
  | block body span => exact codeAll_thins h cursor body
  | ifThen cond body span =>
    rw [Stmt.code, Stmt.code, Expr.branchCode_eq_of_bare h.bare]
    exact ((Thins.refl _).append (codeAll_thins h _ body)).append (.refl _)
  | ifElse cond body alternative span =>
    rw [Stmt.code, Stmt.code, Expr.branchCode_eq_of_bare h.bare]
    exact ((((Thins.refl _).append (codeAll_thins h _ alternative)).append (.refl _)).append
      (codeAll_thins h _ body)).append (.refl _)
  | loop body cond span =>
    rw [Stmt.code, Stmt.code, Expr.branchCode_eq_of_bare h.bare]
    exact ((Thins.refl _).append (codeAll_thins h _ body)).append (.refl _)
  | print format args span =>
    rw [Stmt.code, Stmt.code]
    cases formatText? format with
    | none => exact .refl _
    | some text =>
      simp only [printCode_eq_of_bare h.bare]
      exact .refl _

theorem codeAll_thins (h : t.Thins s) (cursor : Cursor) (ss : List Stmt) :
    Listing.Thins (codeAll t cursor ss) (codeAll s cursor ss) := by
  cases ss with
  | nil => exact .refl _
  | cons stmt ss =>
    exact ((h.annotationLines cursor stmt.span).append (Stmt.code_thins h _ stmt)).append
      (codeAll_thins h _ ss)

end

end SameNames

namespace Program

variable {p q : Program} {options : Options} {u v : ClassUnit}

theorem scope_thins (p : Program) (options : Options) (comments directives : Bool) :
    (p.scope (options.thinned comments directives)).Thins (p.scope options) := by
  refine ⟨?_, fun cursor span => ?_⟩
  · rw [← scope_unplaced, ← scope_unplaced]
  · apply Scope.annotationLines_thins comments directives
    · rw [scope, scope, Scope.source_declareAll, Scope.source_declareAll]
      rfl
    · rw [scope, scope, Scope.options_declareAll, Scope.options_declareAll]
      rfl

theorem mainCode_thins (p : Program) (options : Options) (comments directives : Bool) :
    Thins (p.mainCode (options.thinned comments directives)) (p.mainCode options) := by
  have hthins := p.scope_thins options comments directives
  rw [mainCode, mainCode, ← Scope.prologueCode_bare, ← Scope.epilogueCode_bare, hthins.bare]
  exact ((Thins.refl _).append (codeAll_thins hthins _ p.body)).append (.refl _)

theorem opening_thins (p : Program) (options : Options) (comments directives : Bool) :
    Thins (p.opening (options.thinned comments directives)) (p.opening options) := by
  have hline (d : Declaration) :
      Thins (d.lines (options.thinned comments directives)) (d.lines options) := by
    apply Thins.append _ (.refl _)
    apply Thins.of_remarks
    · cases hc : options.sourceComments <;> cases comments <;> simp [Options.thinned, hc]
    · intro line hm
      split at hm
      · simp only [List.mem_cons, List.not_mem_nil, or_false] at hm
        rcases hm with rfl | rfl <;> rfl
      · simp at hm
  have hlines : Thins (p.decls.flatMap (·.lines (options.thinned comments directives)))
      (p.decls.flatMap (·.lines options)) := by
    induction p.decls with
    | nil => exact .refl _
    | cons d ds ih => exact (hline d).append ih
  rw [opening_eq, opening_eq]
  exact (((Thins.refl _).append hlines).append (.refl _)).append (.refl _)

/-- Options that ask for fewer remarks take some out of the listing. -/
theorem listing_thins {comments directives : Bool} (h : p.unit options = .ok u)
    (k : p.unit (options.thinned comments directives) = .ok v) : Thins v.listing u.listing := by
  have hlimit : p.stackLimit (options.thinned comments directives) = p.stackLimit options :=
    (stackLimit_eq k).trans (stackLimit_eq h).symm
  rw [listing_eq h, listing_eq k, hlimit]
  exact ((p.opening_thins options comments directives).append
    ((Thins.refl [.blank]).append (p.mainCode_thins options comments directives))).append (.refl _)

theorem filter_isCode_main (h : p.unit options = .ok u) :
    (method mainHeader u.listing).filter Line.isCode =
      (p.unplaced.mainCode {}).filter Line.isCode := by
  rw [method_main h, p.filter_mainCode_unplaced options, List.filter_append, List.filter_append]
  exact (List.append_nil _).trans (List.append_nil _)

/-- Programs that differ in their positions and their source text only have the same defect, or the
same warnings, code, fields and need of the stack, whatever the options are. And options that ask
for fewer remarks take comments, blank lines and line numbers out of the listing, and nothing
else. -/
theorem code_independent (h : p.unplaced = q.unplaced) (o₁ o₂ : Options) :
    ((∃ d e, p.unit o₁ = .error (.error d) ∧ q.unit o₂ = .error (.error e) ∧
        d.unplaced = e.unplaced) ∨
      ∃ u v need, p.unit o₁ = .ok u ∧ q.unit o₂ = .ok v ∧
        u.warnings.map Warning.unplaced = v.warnings.map Warning.unplaced ∧
        (method mainHeader u.listing).filter Line.isCode =
          (method mainHeader v.listing).filter Line.isCode ∧
        u.listing.filter Line.isField = v.listing.filter Line.isField ∧
        stackLimits (method mainHeader u.listing) =
          [.directive s!".limit stack {max o₁.stackLimit.toNat need}"] ∧
        stackLimits (method mainHeader v.listing) =
          [.directive s!".limit stack {max o₂.stackLimit.toNat need}"]) ∧
      ∀ comments directives u, p.unit o₁ = .ok u →
        ∃ v, p.unit (o₁.thinned comments directives) = .ok v ∧
          v.listing.Sublist u.listing ∧
          v.listing.filter (!·.isRemark) = u.listing.filter (!·.isRemark) := by
  -- What the two have in common is read off the one program that is left without positions.
  have hdefect : (p.sites.findSome? Site.defect?).map Defect.unplaced =
      (q.sites.findSome? Site.defect?).map Defect.unplaced := by
    rw [← findSome?_defect?_unplaced, h, findSome?_defect?_unplaced]
  constructor
  · cases hp : p.sites.findSome? Site.defect? with
    | some d =>
      rw [hp] at hdefect
      obtain ⟨e, he, hde⟩ := Option.map_eq_some_iff.mp hdefect.symm
      exact .inl ⟨d, e, unit_eq_error_of_defect hp o₁, unit_eq_error_of_defect he o₂, hde.symm⟩
    | none =>
      rw [hp] at hdefect
      have hq := Option.map_eq_none_iff.mp hdefect.symm
      obtain ⟨u, hu⟩ := exists_unit_of_no_defect hp o₁
      obtain ⟨v, hv⟩ := exists_unit_of_no_defect hq o₂
      have hbody : needAll p.body = needAll q.body := by
        rw [← needAll_unplaced, ← needAll_unplaced q.body]
        exact congrArg (fun p => needAll p.body) h
      refine .inr ⟨u, v, max 2 (needAll p.body), hu, hv, ?_, ?_, ?_, ?_, ?_⟩
      · rw [warnings_unit hu, warnings_unit hv, ← warnings_unplaced, ← warnings_unplaced, h]
      · rw [filter_isCode_main hu, filter_isCode_main hv, h]
      · rw [fields_listing hu, fields_listing hv, ← fieldLines_unplaced, h, fieldLines_unplaced]
      · rw [stackLimits_main hu, stackLimit_eq hu]
      · rw [stackLimits_main hv, stackLimit_eq hv, hbody]
  · intro comments directives u hu
    have hp := List.findSome?_eq_none_iff.mpr (defect?_eq_none_of_unit hu)
    obtain ⟨v, hv⟩ := exists_unit_of_no_defect hp (o₁.thinned comments directives)
    have hthins := listing_thins hu hv
    exact ⟨v, hv, hthins.sublist, hthins.others⟩

theorem countdown_code_independent :
    { countdown with source := some countdownText }.unplaced = countdown.unplaced.unplaced ∧
      ∃ u v, { countdown with source := some countdownText }.unit { lineDirectives := true } =
          .ok u ∧
        countdown.unplaced.unit { superClass := "Base", stackLimit := 2 } = .ok v ∧
        (method mainHeader u.listing).filter Line.isCode =
          (method mainHeader v.listing).filter Line.isCode := by
  have hsame : { countdown with source := some countdownText }.unplaced =
      countdown.unplaced.unplaced := rfl
  have hsound : { countdown with source := some countdownText }.sites.findSome? Site.defect? =
      none := rfl
  obtain ⟨⟨d, e, hd, -⟩ | ⟨u, v, need, hu, hv, -, hcode, -⟩, -⟩ :=
    code_independent hsame { lineDirectives := true } { superClass := "Base", stackLimit := 2 }
  · obtain ⟨u, hu⟩ := exists_unit_of_no_defect hsound { lineDirectives := true }
    cases hd.symm.trans hu
  · exact ⟨hsame, u, v, hu, hv, hcode⟩

end Program

end StackLowering
