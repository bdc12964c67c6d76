import Mathlib.Data.List.Nodup
import StackLowering.Proofs.CleanTree

/-!
Well-tagged programs. The names and the tags of a program fit together if no name is declared twice,
every reference carries the numeric tag that its name was declared with, and the operands of every
operation share a numeric tag. These are conditions on the declarations and on single sites of the
tree, and they are exactly what keeps lowering from warning.
-/
namespace StackLowering

/-- A declaration with this name and this tag. -/
def Program.Declares (p : Program) (name : String) (tag : Tag) : Prop :=
  ∃ d ∈ p.decls, d.name = name ∧ d.tag = tag

structure Program.WellTagged (p : Program) : Prop where
  distinct : (p.decls.map Declaration.name).Nodup
  declared : ∀ d ∈ p.decls, d.tag.isNumeric = true
  reference : ∀ v, .value (.var v) ∈ p.sites → p.Declares v.name v.tag
  target : ∀ target value span, .assignment target value span ∈ p.sites →
    p.Declares target.name target.tag
  arithmetic : ∀ op left right tag span,
    .value (.binary (.arithmetic op) left right tag span) ∈ p.sites →
      left.tag = right.tag ∧ left.tag.isNumeric = true
  condition : ∀ op left right tag span, .condition (.binary op left right tag span) ∈ p.sites →
    left.tag = right.tag ∧ left.tag.isNumeric = true
  negation : ∀ operand tag span, .value (.negate operand tag span) ∈ p.sites →
    operand.tag.isNumeric = true
  assigned : ∀ target value span, .assignment target value span ∈ p.sites →
    p.Declares target.name value.tag
  argument : ∀ index e, .argument index e ∈ p.sites → e.tag.isNumeric = true

theorem Tag.commonNumeric?_isSome_iff_eq {a b : Tag} :
    (Tag.commonNumeric? a b).isSome = true ↔ a = b ∧ a.isNumeric = true := by
  cases a <;> cases b <;> decide

namespace Scope

/-- Declarations give no warning if they declare new names, each once, with numeric tags. -/
theorem declarationWarnings_eq_nil_iff {s : Scope} {ds : List Declaration} :
    declarationWarnings s ds = [] ↔
      (∀ d ∈ ds, s.declared? d.name = none ∧ d.tag.isNumeric = true) ∧
        (ds.map Declaration.name).Nodup := by
  induction ds generalizing s with
  | nil => simp [declarationWarnings]
  | cons d ds ih =>
    have hnew (e : Declaration) : (s.declare d).declared? e.name = none ↔
        e.name ≠ d.name ∧ s.declared? e.name = none := by
      rw [declared?_declare]
      by_cases he : e.name = d.name <;> simp [he]
    have hself : (if (s.declared? d.name).isSome then
        [Warning.duplicateDeclaration d.name d.span] else []) ++
          descriptorWarnings d.name d.tag d.span = [] ↔
        s.declared? d.name = none ∧ d.tag.isNumeric = true := by
      simp [descriptorWarnings_eq_nil_iff]
    rw [declarationWarnings, List.append_eq_nil_iff, hself, ih, List.forall_mem_cons, List.map_cons,
      List.nodup_cons]
    simp only [hnew, List.mem_map]
    constructor
    · rintro ⟨hd, hds, hnodup⟩
      refine ⟨⟨hd, fun e he => ⟨(hds e he).1.2, (hds e he).2⟩⟩, ?_, hnodup⟩
      rintro ⟨e, he, hname⟩
      exact (hds e he).1.1 hname
    · rintro ⟨⟨hd, hds⟩, hmem, hnodup⟩
      refine ⟨hd, fun e he => ⟨⟨?_, (hds e he).1⟩, (hds e he).2⟩, hnodup⟩
      exact fun hname => hmem ⟨e, he, hname⟩

/-- After declarations, a name has the tag that it had before, or else that of its first
declaration. -/
theorem declared?_declareAll (s : Scope) (ds : List Declaration) (name : String) :
    (s.declareAll ds).declared? name =
      (s.declared? name).or ((ds.find? fun d => d.name = name).map Declaration.tag) := by
  induction ds generalizing s with
  | nil => simp [declareAll]
  | cons d ds ih =>
    change ((s.declare d).declareAll ds).declared? name = _
    rw [ih, declared?_declare, List.find?_cons]
    by_cases hn : name = d.name
    · subst hn
      cases s.declared? d.name <;> simp
    · have hd : decide (d.name = name) = false := decide_eq_false (Ne.symm hn)
      rw [if_neg hn, hd]

end Scope

namespace Program

/-- The first declaration of a name. -/
def declaration? (p : Program) (name : String) : Option Declaration :=
  p.decls.find? fun d => d.name = name

theorem declared?_scope (p : Program) (options : Options) (name : String) :
    (p.scope options).declared? name = (p.declaration? name).map Declaration.tag :=
  Scope.declared?_declareAll _ _ _

/-- Where no name is declared twice, any declaration of a name is the first one. -/
theorem declared?_scope_eq_some_iff {p : Program} (options : Options) {name : String} {tag : Tag}
    (hd : (p.decls.map Declaration.name).Nodup) :
    (p.scope options).declared? name = some tag ↔ p.Declares name tag := by
  rw [declared?_scope, Option.map_eq_some_iff]
  constructor
  · rintro ⟨d, hfind, rfl⟩
    have hname : d.name = name := by simpa using List.find?_some hfind
    exact ⟨d, List.mem_of_find?_eq_some hfind, hname, rfl⟩
  · rintro ⟨d, hmem, rfl, rfl⟩
    cases hfind : p.declaration? d.name with
    | none =>
      have hnone := List.find?_eq_none.mp hfind d hmem
      simp at hnone
    | some e =>
      have hname : e.name = d.name := by simpa using List.find?_some hfind
      have he : e ∈ p.decls := List.mem_of_find?_eq_some hfind
      exact ⟨e, rfl, congrArg Declaration.tag (List.inj_on_of_nodup_map hd he hmem hname)⟩

/-- Sites fit together with first declarations exactly if they do with any declarations, where no
name is declared twice. -/
theorem wellTagged_iff {p : Program} {options : Options}
    (hd : (p.decls.map Declaration.name).Nodup) (hn : ∀ d ∈ p.decls, d.tag.isNumeric = true) :
    p.WellTagged ↔ ∀ site ∈ p.sites, site.Fits (p.scope options) := by
  have hholds (v : Variable) : (p.scope options).Holds v ↔ p.Declares v.name v.tag := by
    rw [Scope.Holds, declared?_scope_eq_some_iff options hd]
    refine ⟨And.left, fun h => ⟨h, ?_⟩⟩
    obtain ⟨d, hmem, -, htag⟩ := h
    exact htag ▸ hn d hmem
  constructor
  · intro h site hsite
    cases site with
    | value e =>
      cases e with
      | literal kind text tag span => trivial
      | var v => exact (hholds v).mpr (h.reference v hsite)
      | binary op left right tag span =>
        cases op with
        | arithmetic op =>
          exact Tag.commonNumeric?_isSome_iff_eq.mpr (h.arithmetic op left right tag span hsite)
        | relation rel => trivial
      | negate operand tag span => exact h.negation operand tag span hsite
    | condition e =>
      cases e with
      | binary op left right tag span =>
        exact Tag.commonNumeric?_isSome_iff_eq.mpr (h.condition op left right tag span hsite)
      | _ => trivial
    | assignment target e span =>
      have ht := h.target target e span hsite
      refine ⟨(hholds target).mpr ht, ?_⟩
      have hv := h.assigned target e span hsite
      rw [← declared?_scope_eq_some_iff options hd] at ht hv
      exact Option.some.inj (hv.symm.trans ht)
    | format literal span => trivial
    | argument index e => exact h.argument index e hsite
  · intro h
    refine ⟨hd, hn, fun v hv => (hholds v).mp (h _ hv), fun target e span hs => ?_, ?_, ?_,
      fun operand tag span hs => h _ hs, fun target e span hs => ?_, fun index e hs => h _ hs⟩
    · exact (hholds target).mp (h _ hs).1
    · exact fun op left right tag span hs => Tag.commonNumeric?_isSome_iff_eq.mp (h _ hs)
    · exact fun op left right tag span hs => Tag.commonNumeric?_isSome_iff_eq.mp (h _ hs)
    · obtain ⟨hholds', htag⟩ := h _ hs
      rw [htag]
      exact (hholds target).mp hholds'

/-- A unit is clean exactly if its declarations are of distinct names with numeric tags and all its
sites fit together. -/
theorem isClean_iff_fits {p : Program} {options : Options} {u : ClassUnit}
    (h : p.unit options = .ok u) : u.isClean = true ↔
      ((p.decls.map Declaration.name).Nodup ∧ ∀ d ∈ p.decls, d.tag.isNumeric = true) ∧
        ∀ site ∈ p.sites, site.Fits (p.scope options) := by
  have hempty (name : String) : (Scope.ofProgram options p).declared? name = none := rfl
  have hd := defect?_eq_none_of_unit h
  have hsites : p.exits.flatMap (Site.warnings (p.scope options)) = [] ↔
      ∀ site ∈ p.sites, site.Fits (p.scope options) := by
    rw [List.flatMap_eq_nil_iff]
    simp only [exits, (exitsAll_perm p.body).mem_iff]
    exact forall₂_congr fun site hs => Site.warnings_eq_nil_iff (hd site hs)
  rw [ClassUnit.isClean, List.isEmpty_iff, warnings_unit h, warnings, List.append_eq_nil_iff,
    hsites, Scope.declarationWarnings_eq_nil_iff]
  simp only [hempty, true_and, and_comm]

/-- A unit is clean exactly if its program is well tagged. -/
theorem isClean_iff_wellTagged {p : Program} {options : Options} {u : ClassUnit}
    (h : p.unit options = .ok u) : u.isClean = true ↔ p.WellTagged := by
  rw [isClean_iff_fits h]
  constructor
  · rintro ⟨⟨hd, hn⟩, hs⟩
    exact (wellTagged_iff hd hn).mpr hs
  · intro hp
    exact ⟨⟨hp.distinct, hp.declared⟩, (wellTagged_iff hp.distinct hp.declared).mp hp⟩

theorem countdown_isClean_iff_wellTagged :
    ∃ u, countdown.unit {} = .ok u ∧ u.isClean = true ∧ countdown.WellTagged := by
  obtain ⟨u, hu, hw⟩ := countdown_unit
  have hclean : u.isClean = true := by rw [ClassUnit.isClean, hw]; rfl
  exact ⟨u, hu, hclean, (isClean_iff_wellTagged hu).mp hclean⟩

end Program

end StackLowering
