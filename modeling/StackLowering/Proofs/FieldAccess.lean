import StackLowering.Proofs.Exits
import StackLowering.Proofs.WellTagged

/-!
Loads and stores of fields. Every reference to a declared name uses the field of the name's first
declaration, whatever tag the reference carries and however often the name is declared again. The
field of every load and store is made before the main method, unless its name is not declared and
this was warned about.
-/
namespace StackLowering

/-- The operation and the operand of a load or a store. -/
def Line.access? : Line → Option (Opcode × Option String)
  | instruction .getStatic operand => some (.getStatic, operand)
  | instruction .putStatic operand => some (.putStatic, operand)
  | _ => none

theorem Line.access?_siteView : SiteView Line.access? where
  directive text h := rfl
  comment text := rfl
  blank := rfl
  label l := rfl
  goto l := rfl
  other op operand h := by cases op <;> simp_all [Opcode.ofSite, access?]
  target op l m := rfl

theorem Line.isField_siteView : SiteView (Option.guard Line.isField) where
  directive text h := by rw [Option.guard, h]; rfl
  comment text := rfl
  blank := rfl
  label l := rfl
  goto l := rfl
  other op operand h := rfl
  target op l m := rfl

/-- Sites make no fields. -/
theorem Site.isField_lines {scope : Scope} {site : Site} {line : Line}
    (h : line ∈ site.lines scope) : line.isField = false := by
  match site with
  | .condition (.binary op left right tag span) =>
    rw [lines] at h
    cases hj : op.comparisonOr left.tag right.tag with
    | direct b =>
      rw [hj] at h
      cases List.mem_singleton.mp h
      rfl
    | compared c b =>
      rw [hj] at h
      rcases List.mem_cons.mp h with rfl | h
      · rfl
      · cases List.mem_singleton.mp h
        rfl
  | .value (.literal _ _ _ _) | .value (.var _) | .value (.binary _ _ _ _ _)
  | .value (.negate _ _ _) | .assignment _ _ _ | .format _ _ =>
    cases List.mem_singleton.mp h
    rfl
  | .condition (.literal _ _ _ _) | .condition (.var _) | .condition (.negate _ _ _)
  | .argument _ _ => contradiction

namespace Program

/-- The field of a supporting object. -/
def supportField (p : Program) (s : Library.Support) : FieldRef := ⟨p.name, s.field, s.descriptor⟩

/-- The field of a variable: that of the first declaration of its name or, where there is none, one
for the tag that the reference carries. -/
def fieldOf (p : Program) (v : Variable) : FieldRef :=
  match p.declaration? v.name with
  | some d => ⟨p.name, v.name, d.descriptor⟩
  | none => ⟨p.name, v.name, (Descriptor.ofTag? v.tag).getD Descriptor.placeholder⟩

/-- The load or the store of a site. -/
def access? (p : Program) : Site → Option (Opcode × Option String)
  | .value (.var v) => some (.getStatic, some (p.fieldOf v).text)
  | .assignment target _ _ => some (.putStatic, some (p.fieldOf target).text)
  | .format _ _ => some (.getStatic, some Library.systemOut)
  | _ => none

theorem className_scope (p : Program) (options : Options) :
    (p.scope options).className = p.name := Scope.className_declareAll _ _

theorem fieldFor_scope (p : Program) (options : Options) (v : Variable) :
    (p.scope options).fieldFor v = p.fieldOf v := by
  rw [Scope.fieldFor, Scope.field, Scope.storageTag, className_scope, declared?_scope, fieldOf]
  cases p.declaration? v.name <;> rfl

theorem access?_lines (p : Program) (options : Options) (site : Site) :
    (site.lines (p.scope options)).filterMap Line.access? = (p.access? site).toList := by
  match site with
  | .value (.literal _ _ _ _) => rfl
  | .value (.var v) =>
    rw [Site.lines, fieldFor_scope]
    rfl
  | .value (.binary op left right tag span) =>
    simp only [Site.lines]
    cases op <;> cases left.tag <;> cases right.tag <;> rfl
  | .value (.negate operand tag span) =>
    simp only [Site.lines]
    cases operand.tag <;> rfl
  | .condition (.binary op left right tag span) =>
    simp only [Site.lines]
    cases op with
    | arithmetic op => rfl
    | relation rel => cases rel <;> cases left.tag <;> cases right.tag <;> rfl
  | .condition (.literal _ _ _ _) => rfl
  | .condition (.var _) => rfl
  | .condition (.negate _ _ _) => rfl
  | .assignment target e span =>
    rw [Site.lines, fieldFor_scope]
    rfl
  | .format _ _ => rfl
  | .argument _ _ => rfl

theorem access?_fieldLines (p : Program) : p.fieldLines.filterMap Line.access? = [] := by
  apply List.filterMap_eq_nil_iff.mpr
  intro line hline
  rcases mem_fieldLines.mp hline with ⟨s, -, rfl⟩ | ⟨d, -, rfl⟩ <;> rfl

variable {p : Program} {options : Options} {u : ClassUnit}

/-- The loads and stores of a listing: the supporting objects are kept, each exit of the body has
its access, and the timer is loaded. -/
theorem accesses_listing (h : p.unit options = .ok u) :
    u.listing.filterMap Line.access? =
      Library.supports.map (fun s => (.putStatic, some (p.supportField s).text)) ++
        p.exits.filterMap p.access? ++
        [(.getStatic, some (p.supportField Library.runTimer).text)] := by
  have hkeep : (Library.supports.map (p.scope options).keepLine).filterMap Line.access? =
      Library.supports.map fun s => (.putStatic, some (p.supportField s).text) := by
    simp only [Library.supports, List.map_cons, List.map_nil, Scope.keepLine, Scope.field,
      className_scope]
    rfl
  have htimer : [(p.scope options).timerLine].filterMap Line.access? =
      [(.getStatic, some (p.supportField Library.runTimer).text)] := by
    rw [Scope.timerLine, Scope.field, className_scope]
    rfl
  have hsites : (p.exits.flatMap (Site.lines (p.scope options))).filterMap Line.access? =
      p.exits.filterMap p.access? := by
    rw [List.filterMap_flatMap, List.filterMap_eq_flatMap_toList]
    exact congrArg p.exits.flatMap (funext (p.access?_lines options))
  rw [Line.access?_siteView.listing h, List.filterMap_append, List.filterMap_append,
    List.filterMap_append, access?_fieldLines, hkeep, hsites, htimer, List.nil_append]

/-- The fields of a class are made before anything is loaded or stored. -/
theorem fieldLine_mem_front (h : p.unit options = .ok u) {front back : Listing} {line : Line}
    (hsplit : u.listing = front ++ line :: back) (hline : line.access?.isSome = true) {field : Line}
    (hfield : field ∈ p.fieldLines) : field ∈ front := by
  have hopening := mem_opening_of_mem_fieldLines options hfield
  have hquiet : ∀ other ∈ p.opening options, other.access? = none := by
    apply List.filterMap_eq_nil_iff.mp
    rw [Line.access?_siteView.opening, access?_fieldLines]
  rw [listing_eq h, List.append_assoc] at hsplit
  -- The line is not one of the opening, so the opening ends before it.
  rcases List.append_eq_append_iff.mp hsplit with ⟨c, rfl, -⟩ | ⟨c, hc, hback⟩
  · exact List.mem_append_left c hopening
  · cases c with
    | nil => rwa [hc, List.append_nil] at hopening
    | cons first c =>
      cases (List.cons.inj hback).1
      rw [hquiet line (by simp [hc])] at hline
      contradiction

theorem undeclared_mem_referenceWarnings {scope : Scope} {v : Variable}
    (h : scope.declared? v.name = none) :
    .undeclaredVariable v.name v.span ∈ scope.referenceWarnings v := by
  rw [Scope.referenceWarnings, Scope.nameWarnings, h]
  exact List.mem_append_left _ List.mem_cons_self

theorem fieldDirective_inj {name name' descriptor descriptor' : String}
    (hd : ' ' ∉ descriptor.toList) (hd' : ' ' ∉ descriptor'.toList)
    (h : fieldDirective name descriptor = fieldDirective name' descriptor') :
    name = name' ∧ descriptor = descriptor' := by
  have hdescriptor : descriptor = descriptor' := by
    rw [← Kind.fieldDescriptor_append (".field private static " ++ name) hd,
      ← Kind.fieldDescriptor_append (".field private static " ++ name') hd']
    exact congrArg Kind.fieldDescriptor h
  subst hdescriptor
  rw [fieldDirective_eq, fieldDirective_eq, String.append_right_inj, String.append_left_inj,
    String.append_left_inj] at h
  exact ⟨h, rfl⟩

/-- Declarations with distinct names have distinct fields, none of which is a supporting
object's. -/
theorem nodup_fieldLines (h : (p.decls.map Declaration.name).Nodup) : p.fieldLines.Nodup := by
  apply List.Nodup.append
  · decide
  · apply List.Nodup.map_on _ (List.Nodup.of_map _ h)
    intro d hd e he hline
    apply List.inj_on_of_nodup_map h hd he
    exact (fieldDirective_inj (Descriptor.blank_notMem d.tag) (Descriptor.blank_notMem e.tag)
      (Line.directive.inj hline)).1
  · intro line hsupport hdecl
    obtain ⟨s, hs, rfl⟩ := List.mem_map.mp hsupport
    obtain ⟨d, -, hline⟩ := List.mem_map.mp hdecl
    obtain ⟨-, hdescriptor⟩ := fieldDirective_inj (Descriptor.blank_notMem d.tag)
      (Library.blank_notMem hs) (Line.directive.inj hline)
    exact Library.descriptor_ne hs d.tag hdescriptor.symm

/-- The lines that make fields: one for each supporting object and one for each declaration. -/
theorem fields_listing (h : p.unit options = .ok u) :
    u.listing.filter Line.isField = p.fieldLines := by
  have hfields : p.fieldLines.filter Line.isField = p.fieldLines := by
    apply List.filter_eq_self.mpr
    intro line hline
    rcases mem_fieldLines.mp hline with ⟨s, -, rfl⟩ | ⟨d, -, rfl⟩
    · exact Line.isField_fieldDirective _ _
    · exact Line.isField_fieldDirective _ _
  have hsites : (p.exits.flatMap (Site.lines (p.scope options))).filter Line.isField = [] := by
    apply List.filter_eq_nil_iff.mpr
    intro line hline
    obtain ⟨site, -, hline⟩ := List.mem_flatMap.mp hline
    rw [Site.isField_lines hline]
    exact Bool.false_ne_true
  have hkeep : (Library.supports.map (p.scope options).keepLine).filter Line.isField = [] := rfl
  have htimer : [(p.scope options).timerLine].filter Line.isField = [] := rfl
  have hlisting := Line.isField_siteView.listing h
  rw [List.filterMap_eq_filter] at hlisting
  rw [hlisting, List.filter_append, List.filter_append, List.filter_append, hfields, hkeep, hsites,
    htimer, List.append_nil, List.append_nil, List.append_nil]

/-- A site with an access refers to a variable, or is a print that loads its stream. -/
theorem reference_of_access? {site : Site} {op : Opcode} {operand : Option String}
    (h : p.access? site = some (op, operand)) :
    (op = .getStatic ∧ operand = some Library.systemOut) ∨
      ∃ v, operand = some (p.fieldOf v).text ∧
        ∀ scope, ∀ w ∈ scope.referenceWarnings v, w ∈ site.warnings scope := by
  match site with
  | .value (.var v) =>
    cases h
    exact .inr ⟨v, rfl, fun scope w hw => hw⟩
  | .assignment target e span =>
    cases h
    exact .inr ⟨target, rfl, fun scope w hw => List.mem_append_left _ hw⟩
  | .format _ _ =>
    cases h
    exact .inl ⟨rfl, rfl⟩
  | .value (.literal _ _ _ _) | .value (.binary _ _ _ _ _) | .value (.negate _ _ _)
  | .condition _ | .argument _ _ => contradiction

/-- A field of the class that one of these lines makes, with its name and its descriptor, or whose
name was warned about as not declared. -/
structure Backed (p : Program) (u : ClassUnit) (front : List Line) (f : FieldRef) : Prop where
  owner : f.owner = p.name
  descriptor : ' ' ∉ f.descriptor.toList
  made : .directive (fieldDirective f.name f.descriptor) ∈ front ∨
    ∃ span, .undeclaredVariable f.name span ∈ u.warnings

theorem backed_supportField (p : Program) (u : ClassUnit) {s : Library.Support}
    (hs : s ∈ Library.supports) :
    p.Backed u p.fieldLines (p.supportField s) := by
  refine ⟨rfl, Library.blank_notMem hs, .inl ?_⟩
  exact mem_fieldLines.mpr (.inl ⟨s, hs, rfl⟩)

theorem backed_fieldOf (h : p.unit options = .ok u) {site : Site} (hsite : site ∈ p.exits)
    {v : Variable}
    (hv : ∀ scope, ∀ w ∈ scope.referenceWarnings v, w ∈ site.warnings scope) :
    p.Backed u p.fieldLines (p.fieldOf v) := by
  rw [fieldOf]
  cases hd : p.declaration? v.name with
  | some d =>
    have hname : d.name = v.name := by simpa using List.find?_some hd
    refine ⟨rfl, Descriptor.blank_notMem d.tag, .inl ?_⟩
    rw [← hname]
    exact mem_fieldLines.mpr (.inr ⟨d, List.mem_of_find?_eq_some hd, rfl⟩)
  | none =>
    refine ⟨rfl, Descriptor.blank_notMem v.tag, .inr ⟨v.span, ?_⟩⟩
    have hnone : (p.scope options).declared? v.name = none := by rw [declared?_scope, hd]; rfl
    rw [warnings_unit h, warnings]
    apply List.mem_append_right
    exact List.mem_flatMap.mpr ⟨site, hsite, hv _ _ (undeclared_mem_referenceWarnings hnone)⟩

theorem backed_of_access (h : p.unit options = .ok u) {op : Opcode} {operand : Option String}
    (haccess : (op, operand) ∈ u.listing.filterMap Line.access?) :
    (op = .getStatic ∧ operand = some Library.systemOut) ∨
      ∃ f, operand = some f.text ∧ p.Backed u p.fieldLines f := by
  rw [accesses_listing h, List.mem_append, List.mem_append] at haccess
  rcases haccess with (hkeep | hsite) | htimer
  · obtain ⟨s, hs, heq⟩ := List.mem_map.mp hkeep
    cases heq
    exact .inr ⟨_, rfl, backed_supportField p u hs⟩
  · obtain ⟨site, hsite, haccess⟩ := List.mem_filterMap.mp hsite
    rcases reference_of_access? haccess with hprint | ⟨v, hv, hwarn⟩
    · exact .inl hprint
    · exact .inr ⟨_, hv, backed_fieldOf h hsite hwarn⟩
  · cases List.mem_singleton.mp htimer
    exact .inr ⟨_, rfl, backed_supportField p u List.mem_cons_self⟩

/-- Loads and stores agree with declarations. The accesses of a listing are those of the supporting
objects and of the sites of the body, each site once, and a reference to a declared name uses the
descriptor of the name's first declaration. But for the stream of a print, the field of every access
is made further up, unless its name is not declared and was warned about. The fields of a clean unit
are distinct, with those of the supporting objects. -/
theorem field_access_agrees (h : p.unit options = .ok u) :
    (u.listing.filterMap Line.access? =
        Library.supports.map (fun s => (.putStatic, some (p.supportField s).text)) ++
          p.exits.filterMap p.access? ++
          [(.getStatic, some (p.supportField Library.runTimer).text)] ∧
      p.exits.Perm p.sites ∧
      ∀ v d, p.declaration? v.name = some d → p.fieldOf v = ⟨p.name, v.name, d.descriptor⟩) ∧
    (∀ front back op operand, u.listing = front ++ .instruction op operand :: back →
      op = .getStatic ∨ op = .putStatic →
        (op = .getStatic ∧ operand = some Library.systemOut) ∨
          ∃ f, operand = some f.text ∧ p.Backed u front f) ∧
    u.listing.filter Line.isField = p.fieldLines ∧
    (u.isClean = true → (u.listing.filter Line.isField).Nodup) := by
  refine ⟨⟨accesses_listing h, exitsAll_perm p.body, fun v d hd => ?_⟩,
    fun front back op operand hsplit hop => ?_, fields_listing h, fun hclean => ?_⟩
  · rw [fieldOf, hd]
  · have haccess : (Line.instruction op operand).access? = some (op, operand) := by
      rcases hop with rfl | rfl <;> rfl
    have hmem : (op, operand) ∈ u.listing.filterMap Line.access? := by
      apply List.mem_filterMap.mpr
      exact ⟨.instruction op operand, by simp [hsplit], haccess⟩
    rcases backed_of_access h hmem with hprint | ⟨f, hf, hbacked⟩
    · exact .inl hprint
    · refine .inr ⟨f, hf, hbacked.owner, hbacked.descriptor, hbacked.made.imp_left ?_⟩
      exact fieldLine_mem_front h hsplit (by rw [haccess]; rfl)
  · rw [fields_listing h]
    obtain ⟨⟨hd, -⟩, -⟩ := (isClean_iff_fits h).mp hclean
    exact nodup_fieldLines hd

theorem muddle_field_access_agrees :
    (∃ u, muddle.unit {} = .ok u ∧
      u.listing.filterMap Line.access? =
        [(.putStatic, some "Muddle/_runTimer LRunTimer;"),
          (.putStatic, some "Muddle/_standardIn LPascalTextIn;"),
          (.getStatic, some "Muddle/a ?"), (.putStatic, some "Muddle/b I"),
          (.getStatic, some "Muddle/c ?"), (.getStatic, some Library.systemOut),
          (.getStatic, some "Muddle/b I"), (.getStatic, some "Muddle/_runTimer LRunTimer;")] ∧
      ∀ front back op operand, u.listing = front ++ .instruction op operand :: back →
        op = .getStatic ∨ op = .putStatic →
          (op = .getStatic ∧ operand = some Library.systemOut) ∨
            ∃ f, operand = some f.text ∧ muddle.Backed u front f) ∧
    ∃ u, countdown.unit {} = .ok u ∧ u.isClean = true ∧
      (u.listing.filter Line.isField).Nodup := by
  obtain ⟨u, hu, -⟩ := muddle_unit
  obtain ⟨v, hv, hempty⟩ := countdown_unit
  have hclean : v.isClean = true := by rw [ClassUnit.isClean, hempty]; rfl
  obtain ⟨⟨haccess, -⟩, hbacked, -⟩ := field_access_agrees hu
  obtain ⟨-, -, -, hnodup⟩ := field_access_agrees hv
  exact ⟨⟨u, hu, haccess.trans rfl, hbacked⟩, v, hv, hclean, hnodup hclean⟩

end Program

end StackLowering
