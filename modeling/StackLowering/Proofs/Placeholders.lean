import StackLowering.Proofs.Exits
import StackLowering.Proofs.Failure

/-!
Placeholders and warnings. Where no operation or descriptor exists, lowering writes a placeholder
and warns. The lines are written and the warnings are recorded apart from each other, with other
lines and other warnings in between; still the placeholders of a listing and the warnings about
them are the same sequence.
-/
namespace StackLowering

/-- What a placeholder stands for. -/
inductive Placeholder where
  | operator
  | comparison
  | negation
  | descriptor
deriving DecidableEq, Repr

/-- The placeholder in a line. -/
def Line.placeholder? : Line → Option Placeholder
  | instruction .unresolved _ => some .operator
  | branch .unresolvedBranch _ => some .comparison
  | instruction .unresolvedNeg _ => some .negation
  | line => if line.descriptor? = some Descriptor.placeholder then some .descriptor else none

/-- The placeholder that a warning is about. -/
def Warning.placeholder? : Warning → Option Placeholder
  | unresolvedOperator _ _ _ _ => some .operator
  | unresolvedComparison _ _ _ _ => some .comparison
  | unresolvedNegation _ _ => some .negation
  | unknownDescriptor _ _ => some .descriptor
  | _ => none

theorem Line.placeholder?_siteView : SiteView Line.placeholder? where
  directive text h := by simp [placeholder?, descriptor?, h]
  comment text := rfl
  blank := rfl
  label l := rfl
  goto l := rfl
  other op operand h := by cases op <;> simp_all [Opcode.ofSite, placeholder?, descriptor?]
  target op l m := by cases op <;> rfl

/-! Each site writes the placeholders that it warns about. -/

theorem placeholders_field {line : Line} (name : String) {tag : Tag} (span : Span)
    (h : line.placeholder? =
      if line.descriptor? = some Descriptor.placeholder then some .descriptor else none)
    (hd : line.descriptor? = some ((Descriptor.ofTag? tag).getD Descriptor.placeholder)) :
    [line].filterMap Line.placeholder? =
      (descriptorWarnings name tag span).filterMap Warning.placeholder? := by
  rw [List.filterMap_cons, h, hd]
  cases tag <;> rfl

namespace Scope

variable (scope : Scope)

theorem placeholders_nameWarnings (v : Variable) :
    (scope.nameWarnings v).filterMap Warning.placeholder? = [] := by
  unfold nameWarnings
  cases scope.declared? v.name with
  | none => rfl
  | some declared =>
    simp only
    split <;> rfl

/-- A line that uses the field of a variable has a placeholder exactly if resolving the variable
warns about its descriptor. -/
theorem placeholders_reference (v : Variable) {line : Line}
    (h : line.placeholder? =
      if line.descriptor? = some Descriptor.placeholder then some .descriptor else none)
    (hd : line.descriptor? = some (Kind.fieldDescriptor (scope.fieldFor v).text)) :
    [line].filterMap Line.placeholder? =
      (scope.referenceWarnings v).filterMap Warning.placeholder? := by
  have hblank : ' ' ∉ (scope.fieldFor v).descriptor.toList := Descriptor.blank_notMem _
  rw [Kind.fieldDescriptor_text hblank] at hd
  rw [referenceWarnings, List.filterMap_append, placeholders_nameWarnings, List.nil_append]
  exact placeholders_field _ _ h hd

/-- Loads and stores of supporting objects have no placeholder. -/
theorem placeholder?_support {s : Library.Support} (hs : s ∈ Library.supports) {line : Line}
    (h : line.placeholder? =
      if line.descriptor? = some Descriptor.placeholder then some .descriptor else none)
    (hd : line.descriptor? =
      some (Kind.fieldDescriptor (scope.field s.field s.descriptor).text)) :
    line.placeholder? = none := by
  have hne : s.descriptor ≠ Descriptor.placeholder := Library.descriptor_ne hs .unknown
  have htext : Kind.fieldDescriptor (scope.field s.field s.descriptor).text = s.descriptor :=
    Kind.fieldDescriptor_text (Library.blank_notMem hs)
  rw [h, hd, htext, if_neg fun he => hne (Option.some.inj he)]

theorem placeholder?_keepLine {s : Library.Support} (hs : s ∈ Library.supports) :
    (scope.keepLine s).placeholder? = none := scope.placeholder?_support hs rfl rfl

theorem placeholder?_timerLine : scope.timerLine.placeholder? = none :=
  scope.placeholder?_support (s := Library.runTimer) List.mem_cons_self rfl rfl

end Scope

theorem Site.placeholders_lines (scope : Scope) (site : Site) :
    (site.lines scope).filterMap Line.placeholder? =
      (site.warnings scope).filterMap Warning.placeholder? := by
  match site with
  | .value (.literal _ _ _ _) => rfl
  | .value (.var v) => exact scope.placeholders_reference v rfl rfl
  | .value (.binary op left right tag span) =>
    simp only [lines, warnings]
    cases op <;> cases left.tag <;> cases right.tag <;> rfl
  | .value (.negate operand tag span) =>
    simp only [lines, warnings]
    cases operand.tag <;> rfl
  | .condition (.binary op left right tag span) =>
    simp only [lines, warnings]
    cases op with
    | arithmetic op => rfl
    | relation rel => cases rel <;> cases left.tag <;> cases right.tag <;> rfl
  | .condition (.literal _ _ _ _) => rfl
  | .condition (.var _) => rfl
  | .condition (.negate _ _ _) => rfl
  | .assignment target e span =>
    rw [lines, warnings, List.filterMap_append, scope.placeholders_reference target rfl rfl]
    split <;> exact (List.append_nil _).symm
  | .format _ _ =>
    exact (by decide :
      [Line.instruction .getStatic (some Library.systemOut)].filterMap Line.placeholder? = [])
  | .argument index e =>
    rw [lines, warnings]
    split <;> rfl

theorem placeholders_declarations (scope : Scope) (ds : List Declaration) :
    (ds.map Declaration.fieldLine).filterMap Line.placeholder? =
      (declarationWarnings scope ds).filterMap Warning.placeholder? := by
  induction ds generalizing scope with
  | nil => rfl
  | cons d ds ih =>
    have hfield : [d.fieldLine].filterMap Line.placeholder? =
        (descriptorWarnings d.name d.tag d.span).filterMap Warning.placeholder? := by
      apply placeholders_field d.name d.span rfl
      rw [Declaration.fieldLine, Line.descriptor?, if_pos (Line.isField_fieldDirective _ _)]
      exact congrArg some (Kind.fieldDescriptor_append _ (Descriptor.blank_notMem d.tag))
    rw [declarationWarnings, List.filterMap_append, List.filterMap_append, ← ih, ← hfield,
      List.map_cons, ← List.singleton_append, List.filterMap_append]
    split <;> rfl

namespace Line

theorem placeholder?_of_descriptor? {line : Line}
    (h : line.descriptor? = some Descriptor.placeholder) :
    line.placeholder? = some .descriptor := by
  cases line with
  | instruction op operand => cases op <;> simp_all [placeholder?, descriptor?]
  | directive text => simp [placeholder?, h]
  | _ => simp [descriptor?] at h

/-- Operations that branch stand in branches, and no others do. -/
def isSound : Line → Bool
  | instruction op _ => !op.isBranch
  | branch op _ => op.isBranch
  | _ => true

theorem isPlaceholder_eq_false {line : Line} {op : Opcode} (hs : line.isSound = true)
    (hop : line.opcode? = some op) (h : line.placeholder? = none) : op.isPlaceholder = false := by
  cases line with
  | instruction =>
    cases Option.some.inj hop
    cases op <;> simp_all [isSound, Opcode.isBranch, placeholder?, Opcode.isPlaceholder]
  | branch =>
    cases Option.some.inj hop
    cases op <;> simp_all [isSound, Opcode.isBranch, placeholder?, Opcode.isPlaceholder]
  | _ => contradiction

end Line

theorem Assembler.all_isSound_written (a : Assembler) {e : Emission} (h : e.isSound = true) :
    (a.written e).all Line.isSound = true := by
  cases e with
  | instruction op operand => simpa [written, Line.isSound, Emission.isSound] using h
  | invoke op method => simpa [written, Line.isSound] using (Bool.and_eq_true_iff.mp h).1
  | branch op target => simpa [written, Line.isSound, Emission.isSound] using h
  | _ => rfl

namespace Program

variable {p : Program} {options : Options} {u : ClassUnit}

theorem isSound_of_mem_listing (h : p.unit options = .ok u) {line : Line}
    (hline : line ∈ u.listing) : line.isSound = true := by
  obtain ⟨-, hl, -⟩ := unit_eq_ok h
  rw [hl] at hline
  obtain ⟨e, he, b, hb⟩ := Assembler.mem_writtenAll hline
  have hs := (lower_places p options).sound e he
  exact List.all_eq_true.mp (b.all_isSound_written hs) line hb

/-- The placeholders of a listing are those that the warnings are about, in the same order. A clean
unit has none. -/
theorem placeholders_match_warnings (h : p.unit options = .ok u) :
    u.listing.filterMap Line.placeholder? = u.warnings.filterMap Warning.placeholder? ∧
      (u.isClean = true → ∀ line ∈ u.listing,
        line.descriptor? ≠ some Descriptor.placeholder ∧
          ∀ op, line.opcode? = some op → op.isPlaceholder = false) := by
  have hsites : (p.exits.flatMap (Site.lines (p.scope options))).filterMap Line.placeholder? =
      (p.exits.flatMap (Site.warnings (p.scope options))).filterMap Warning.placeholder? := by
    rw [List.filterMap_flatMap, List.filterMap_flatMap]
    exact congrArg p.exits.flatMap (funext (Site.placeholders_lines (p.scope options)))
  have hsame : u.listing.filterMap Line.placeholder? =
      u.warnings.filterMap Warning.placeholder? := by
    rw [Line.placeholder?_siteView.listing h, warnings_unit h, warnings, fieldLines]
    have hfields : (Library.supports.map Library.Support.fieldLine).filterMap
        Line.placeholder? = [] := by decide
    have hkeep : (Library.supports.map (p.scope options).keepLine).filterMap
        Line.placeholder? = [] := by
      apply List.filterMap_eq_nil_iff.mpr
      intro line hline
      obtain ⟨s, hs, rfl⟩ := List.mem_map.mp hline
      exact (p.scope options).placeholder?_keepLine hs
    have htimer : [(p.scope options).timerLine].filterMap Line.placeholder? = [] :=
      List.filterMap_cons_none (p.scope options).placeholder?_timerLine
    simp only [List.filterMap_append, hsites, hfields, hkeep, htimer, List.nil_append,
      List.append_nil, placeholders_declarations (Scope.ofProgram options p)]
  refine ⟨hsame, fun hclean line hline => ?_⟩
  have hempty : u.warnings = [] := List.isEmpty_iff.mp hclean
  rw [hempty, List.filterMap_nil, List.filterMap_eq_nil_iff] at hsame
  have hnone := hsame line hline
  refine ⟨fun hd => ?_, fun op hop => ?_⟩
  · rw [Line.placeholder?_of_descriptor? hd] at hnone
    contradiction
  · exact Line.isPlaceholder_eq_false (isSound_of_mem_listing h hline) hop hnone

theorem muddle_placeholders_match_warnings :
    (∃ u, muddle.unit {} = .ok u ∧ u.listing.filterMap Line.placeholder? =
      [.descriptor, .descriptor, .operator, .negation, .descriptor, .comparison]) ∧
      ∃ u, countdown.unit {} = .ok u ∧ u.isClean = true ∧ ∀ line ∈ u.listing,
        line.descriptor? ≠ some Descriptor.placeholder ∧
          ∀ op, line.opcode? = some op → op.isPlaceholder = false := by
  obtain ⟨u, hu, hw⟩ : ∃ u, muddle.unit {} = .ok u ∧ u.warnings.filterMap Warning.placeholder? =
      [.descriptor, .descriptor, .operator, .negation, .descriptor, .comparison] := ⟨_, rfl, rfl⟩
  obtain ⟨v, hv, hempty⟩ := countdown_unit
  have hclean : v.isClean = true := by rw [ClassUnit.isClean, hempty]; rfl
  exact ⟨⟨u, hu, (placeholders_match_warnings hu).1.trans hw⟩,
    v, hv, hclean, (placeholders_match_warnings hv).2 hclean⟩

end Program

end StackLowering
