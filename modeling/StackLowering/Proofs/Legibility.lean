import StackLowering.Proofs.Failure
import StackLowering.Proofs.Fields
import StackLowering.Proofs.Rendering

/-!
The lines of a class are legible, and each takes one line of its text. What could break a line is a
text of the program: a name, a literal or a format that holds a line feed. An echo of the source
cannot, since a source line ends where a line feed stands. So the text of a class without such names
determines its listing.
-/
namespace StackLowering

namespace Source

theorem trim_sublist (cs : List Char) : (trim cs).Sublist cs := by
  have hback : ((cs.dropWhile isBlank).reverse.dropWhile isBlank).reverse.Sublist
      (cs.dropWhile isBlank).reverse.reverse := (List.dropWhile_sublist _).reverse
  rw [List.reverse_reverse] at hback
  exact hback.trans (List.dropWhile_sublist _)

theorem dropReturn_sublist (cs : List Char) : (dropReturn cs).Sublist cs := by
  unfold dropReturn
  split
  · exact List.dropLast_sublist cs
  · exact .refl cs

theorem notMem_of_mem_lines {cs l : List Char} (h : l ∈ lines cs) : '\n' ∉ l := by
  rw [lines, List.mem_append] at h
  rcases h with h | h
  · obtain ⟨piece, hpiece, rfl⟩ := List.mem_map.mp h
    intro hm
    exact Text.notMem_of_mem_pieces (List.dropLast_subset _ hpiece)
      ((dropReturn_sublist piece).subset hm)
  · have hlast := (List.mem_filter.mp h).1
    exact Text.notMem_of_mem_pieces (List.mem_of_getLast? (Option.mem_toList.mp hlast))

/-- A line of a text is one line. -/
theorem oneLine_of_line? {text words : String} {n : Nat} (h : line? text n = some words) :
    OneLine words := by
  unfold line? at h
  split at h
  · contradiction
  · obtain ⟨l, hl, rfl⟩ := Option.map_eq_some_iff.mp h
    intro hm
    rw [String.toList_ofList] at hm
    exact notMem_of_mem_lines (List.mem_of_getElem? hl) ((trim_sublist l).subset hm)

end Source

/-- An operation up to its operand. -/
theorem oneLine_operation (op : Opcode) : OneLine ("\t" ++ op.mnemonic ++ op.separator) := by
  apply OneLine.append
  · exact .append (by decide) op.notMem_mnemonic.2.2
  · rcases op.separator_eq with h | h <;> rw [h] <;> decide

/-- A legible line that takes one line of text. -/
structure Line.Clear (line : Line) : Prop where
  legible : line.Legible
  oneLine : OneLine line.text

namespace Line.Clear

theorem blank : Clear .blank := ⟨trivial, by decide⟩

theorem comment {words : String} (h : OneLine words) : Clear (.comment words) :=
  ⟨trivial, .append (by decide) h⟩

theorem directive {front rest : String} (hd : front.toList.head? = some '.') (hf : OneLine front)
    (hr : OneLine rest) : Clear (.directive (front ++ rest)) := by
  refine ⟨?_, hf.append hr⟩
  change (front ++ rest).toList.head? = some '.'
  rw [String.toList_append, List.head?_append, hd]
  rfl

theorem label (l : Label) : Clear (.label l) :=
  ⟨trivial, .append (.append (by decide) (oneLine_toString l.id)) (by decide)⟩

theorem plain {op : Opcode} (h : op.isBranch = false) : Clear (.instruction op none) :=
  ⟨⟨h, fun _ => rfl⟩, .append (by decide) op.notMem_mnemonic.2.2⟩

theorem operand (op : Opcode) (hb : op.isBranch = false) (hu : op ≠ .unresolved)
    {operand : String} (h : OneLine operand) : Clear (.instruction op (some operand)) :=
  ⟨⟨hb, fun he => absurd he hu⟩, .append (oneLine_operation op) h⟩

theorem branch {op : Opcode} (h : op.isBranch = true) (target : Label) :
    Clear (.branch op target) :=
  ⟨h, .append (oneLine_operation op) (.append (by decide) (oneLine_toString target.id))⟩

end Line.Clear

namespace Listing

/-- All lines are legible and take one line of text each. -/
def Clear (ls : List Line) : Prop := ∀ line ∈ ls, line.Clear

namespace Clear

theorem nil : Clear [] := fun _ h => nomatch h

theorem cons {line : Line} {ls : List Line} (h : line.Clear) (hs : Clear ls) :
    Clear (line :: ls) := List.forall_mem_cons.mpr ⟨h, hs⟩

theorem append {ls ms : List Line} (hl : Clear ls) (hm : Clear ms) : Clear (ls ++ ms) :=
  List.forall_mem_append.mpr ⟨hl, hm⟩

theorem single {line : Line} (h : line.Clear) : Clear [line] := .cons h .nil

end Clear

end Listing

open Listing (Clear)

/-- The texts of a program that stand at a site hold no line feed. -/
def Site.Unbroken : Site → Prop
  | value (.literal _ text _ _) => OneLine text
  | value (.var v) => OneLine v.name
  | assignment target _ _ => OneLine target.name
  | format literal _ => OneLine literal
  | _ => True

instance : (site : Site) → Decidable site.Unbroken
  | .value (.literal _ text _ _) => inferInstanceAs (Decidable (OneLine text))
  | .value (.var v) => inferInstanceAs (Decidable (OneLine v.name))
  | .value (.binary _ _ _ _ _) | .value (.negate _ _ _) => inferInstanceAs (Decidable True)
  | .assignment target _ _ => inferInstanceAs (Decidable (OneLine target.name))
  | .format literal _ => inferInstanceAs (Decidable (OneLine literal))
  | .condition _ | .argument _ _ => inferInstanceAs (Decidable True)

theorem oneLine_formatText? {literal text : String} (h : OneLine literal)
    (ht : formatText? literal = some text) : OneLine text := by
  unfold formatText? at ht
  split at ht
  case h_1 rest hrest =>
    split at ht
    · cases ht
      intro hm
      rw [String.toList_ofList] at hm
      apply h
      rw [hrest]
      exact List.mem_cons_of_mem _ (List.dropLast_subset _ hm)
    · contradiction
  case h_2 => contradiction

theorem Operator.isBranch_arithmeticOr (op : Operator) (left right : Tag) :
    (op.arithmeticOr left right).isBranch = false := by
  have hp := op.isProper_arithmeticOr left right
  simpa [Emission.isSound, Emission.plain] using (Bool.and_eq_true_iff.mp hp).2

theorem Tag.isBranch_negationOr (t : Tag) : t.negationOr.isBranch = false := by
  simpa [Emission.isSound, Emission.plain] using (Bool.and_eq_true_iff.mp t.isProper_negationOr).2

theorem Operator.lines_clear (op : Operator) (left right : Tag) (target : Label) :
    Clear ((op.comparisonOr left right).lines target) := by
  have hsound (e : Emission) (he : e ∈ (op.comparisonOr left right).emissions target) :
      e.isSound = true :=
    (Bool.and_eq_true_iff.mp (List.all_eq_true.mp (op.isProper_comparisonOr _ _ _) e he)).2
  cases hj : op.comparisonOr left right with
  | direct branch =>
    rw [hj] at hsound
    exact .single (.branch (hsound _ (.head _)) target)
  | compared compare branch =>
    rw [hj] at hsound
    have hplain : compare.isBranch = false := by
      simpa [Emission.isSound, Emission.plain] using hsound _ (.head _)
    exact .cons (.plain hplain) (.single (.branch (hsound _ (.tail _ (.head _))) target))

/-- An echo of the source is a line of it. -/
theorem Scope.annotationLines_clear (scope : Scope) (cursor : Cursor) (span : Span) :
    Clear (scope.annotationLines cursor span) := by
  unfold annotationLines echoLines
  split
  · apply Clear.append
    · split
      · split
        case h_1 words hwords =>
          obtain ⟨source, -, hline⟩ := Option.bind_eq_some_iff.mp hwords
          exact .cons .blank (.single (.comment (Source.oneLine_of_line? hline)))
        case h_2 => exact .nil
      · exact .nil
    · split
      · have hline : (Line.directive (".line " ++ toString span.line.toNat)).Clear :=
          .directive rfl (by decide) (oneLine_toString _)
        exact .single hline
      · exact .nil
  · exact .nil

section Code

variable {scope : Scope} (hc : OneLine scope.className)

include hc

theorem Scope.oneLine_field {name descriptor : String} (hn : OneLine name)
    (hd : OneLine descriptor) : OneLine (scope.field name descriptor).text :=
  (((hc.append (by decide)).append hn).append (by decide)).append hd

theorem Scope.oneLine_fieldFor {v : Variable} (h : OneLine v.name) :
    OneLine (scope.fieldFor v).text := by
  apply oneLine_field hc h
  cases scope.storageTag v <;> decide

theorem Expr.code_clear {e : Expr} (he : ∀ site ∈ e.sites, site.Unbroken) :
    Clear (e.code scope) := by
  induction e with
  | literal kind text tag span =>
    exact .single (.operand .ldc rfl (by decide) (he _ List.mem_cons_self))
  | var v =>
    exact .single (.operand .getStatic rfl (by decide)
      (Scope.oneLine_fieldFor hc (he _ List.mem_cons_self)))
  | binary op left right tag span ihl ihr =>
    obtain ⟨-, he⟩ := List.forall_mem_cons.mp he
    obtain ⟨hl, hr⟩ := List.forall_mem_append.mp he
    exact ((ihl hl).append (ihr hr)).append (.single (.plain (op.isBranch_arithmeticOr _ _)))
  | negate operand tag span ih =>
    obtain ⟨-, he⟩ := List.forall_mem_cons.mp he
    exact (ih he).append (.single (.plain operand.tag.isBranch_negationOr))

theorem Expr.branchCode_clear {e : Expr} (he : ∀ site ∈ e.conditionSites, site.Unbroken)
    (target : Label) : Clear (e.branchCode scope target) := by
  cases e with
  | binary op left right tag span =>
    have hoperand : ∀ operand ∈ [left, right], Clear (operand.code scope) := by
      intro operand hm
      apply code_clear hc
      intro site hs
      exact he site (List.mem_cons_of_mem _ (List.mem_flatMap.mpr ⟨operand, hm, hs⟩))
    exact ((hoperand left (by simp)).append (hoperand right (by simp))).append
      (op.lines_clear _ _ target)
  | _ => exact .nil

theorem argumentsCode_clear {index : Nat} {args : List Expr}
    (ha : ∀ site ∈ argumentSites index args, site.Unbroken) :
    Clear (argumentsCode scope index args) := by
  induction args generalizing index with
  | nil => exact .nil
  | cons arg args ih =>
    obtain ⟨-, ha⟩ := List.forall_mem_cons.mp ha
    obtain ⟨harg, hargs⟩ := List.forall_mem_append.mp ha
    have hbox : OneLine (Library.boxing arg.tag) := by
      cases arg.tag <;> decide +kernel
    have hstart : Clear [.instruction .dup none, .instruction .ldc (some (toString index))] :=
      .cons (.plain rfl) (.single (.operand .ldc rfl (by decide) (oneLine_toString index)))
    have hstore : Clear [.instruction .invokeStatic (some (Library.boxing arg.tag)),
        .instruction .aastore none] :=
      .cons (.operand .invokeStatic rfl (by decide) hbox) (.single (.plain rfl))
    exact ((hstart.append (Expr.code_clear hc harg)).append hstore).append (ih hargs)

theorem printCode_clear {text : String} {args : List Expr} (ht : OneLine text)
    (ha : ∀ site ∈ argumentSites 0 args, site.Unbroken) : Clear (printCode scope text args) := by
  have hquoted : OneLine s!"\"{text}\"" := ((OneLine.append (by decide) ht).append (by decide))
  have hstart : Clear [.instruction .getStatic (some Library.systemOut),
      .instruction .ldc (some s!"\"{text}\""), .instruction .ldc (some (toString args.length)),
      .instruction .anewarray (some Library.objectClass)] := by
    apply Clear.cons (.operand .getStatic rfl (by decide) (by decide +kernel))
    apply Clear.cons (.operand .ldc rfl (by decide) hquoted)
    apply Clear.cons (.operand .ldc rfl (by decide) (oneLine_toString _))
    exact .single (.operand .anewarray rfl (by decide) (by decide +kernel))
  have hend : Clear [.instruction .invokeVirtual (some Library.printf),
      .instruction .pop none] := by
    apply Clear.cons (.operand .invokeVirtual rfl (by decide) (by decide +kernel))
    exact .single (.plain rfl)
  exact (hstart.append (argumentsCode_clear hc ha)).append hend

end Code

mutual

theorem Stmt.code_clear {scope : Scope} (hc : OneLine scope.className) (cursor : Cursor) {s : Stmt}
    (h : ∀ site ∈ s.sites, site.Unbroken) : Clear (s.code scope cursor) := by
  cases s with
  | assign target value span =>
    obtain ⟨hvalue, htarget⟩ := List.forall_mem_append.mp h
    have hname : OneLine target.name := htarget _ List.mem_cons_self
    exact (Expr.code_clear hc hvalue).append
      (.single (.operand .putStatic rfl (by decide) (Scope.oneLine_fieldFor hc hname)))
  | block body span => exact codeAll_clear hc cursor h
  | ifThen cond body span =>
    obtain ⟨hcond, hbody⟩ := List.forall_mem_append.mp h
    exact ((((Clear.single (.label _)).append (Expr.branchCode_clear hc hcond _)).append
      (.cons (.branch rfl _) (.single (.label _)))).append (codeAll_clear hc _ hbody)).append
      (.single (.label _))
  | ifElse cond body alternative span =>
    obtain ⟨hcond, h⟩ := List.forall_mem_append.mp h
    obtain ⟨halternative, hbody⟩ := List.forall_mem_append.mp h
    exact (((((Clear.single (.label _)).append (Expr.branchCode_clear hc hcond _)).append
      (codeAll_clear hc _ halternative)).append (.cons (.branch rfl _) (.single (.label _)))).append
      (codeAll_clear hc _ hbody)).append (.cons (.branch rfl _) (.single (.label _)))
  | loop body cond span =>
    obtain ⟨hbody, hcond⟩ := List.forall_mem_append.mp h
    exact ((Clear.single (.label _)).append (codeAll_clear hc _ hbody)).append
      (Expr.branchCode_clear hc hcond _)
  | print format args span =>
    obtain ⟨hformat, hargs⟩ := List.forall_mem_cons.mp h
    rw [Stmt.code]
    cases ht : formatText? format with
    | none => exact .nil
    | some text => exact printCode_clear hc (oneLine_formatText? hformat ht) hargs

/-- The code of statements whose texts hold no line feed is clear, whatever the source is. -/
theorem codeAll_clear {scope : Scope} (hc : OneLine scope.className) (cursor : Cursor)
    {ss : List Stmt} (h : ∀ site ∈ sitesAll ss, site.Unbroken) :
    Clear (codeAll scope cursor ss) := by
  cases ss with
  | nil => exact .nil
  | cons s ss =>
    obtain ⟨hs, hss⟩ := List.forall_mem_append.mp h
    exact ((scope.annotationLines_clear cursor s.span).append (Stmt.code_clear hc _ hs)).append
      (codeAll_clear hc _ hss)

end

namespace Program

variable {p : Program} {options : Options} {u : ClassUnit}

/-- No name, literal or format of a program holds a line feed. Its source text may. -/
structure Unbroken (p : Program) : Prop where
  name : OneLine p.name
  decls : ∀ d ∈ p.decls, OneLine d.name
  sites : ∀ site ∈ p.sites, site.Unbroken

theorem fieldDirective_clear {name descriptor : String} (hn : OneLine name)
    (hd : OneLine descriptor) : (Line.directive (fieldDirective name descriptor)).Clear := by
  rw [fieldDirective_eq]
  exact .directive rfl (by decide) ((hn.append (by decide)).append hd)

theorem support_oneLine {s : Library.Support} (h : s ∈ Library.supports) :
    OneLine s.field ∧ OneLine s.descriptor ∧ OneLine s.className := by
  revert s
  decide +kernel

theorem declarations_clear (h : ∀ d ∈ p.decls, OneLine d.name) :
    Clear (p.decls.flatMap (·.lines options)) := by
  intro line hm
  obtain ⟨d, hd, hm⟩ := List.mem_flatMap.mp hm
  have htag : OneLine d.tag.name := by cases d.tag <;> decide
  have hdescriptor : OneLine d.descriptor := by
    unfold Declaration.descriptor
    cases d.tag <;> decide
  have hfield : Clear [d.fieldLine] := .single (fieldDirective_clear (h d hd) hdescriptor)
  have hcomment : OneLine (d.name ++ " : " ++ d.tag.name) :=
    ((h d hd).append (by decide)).append htag
  rw [Declaration.lines] at hm
  split at hm
  · exact Clear.append (.cons .blank (.single (.comment hcomment))) hfield line hm
  · exact Clear.append .nil hfield line hm

theorem endLine_clear : (Line.directive ".end method").Clear := ⟨rfl, by decide⟩

theorem stackLimit_clear (limit : Nat) : (Line.directive s!".limit stack {limit}").Clear := by
  change (Line.directive (".limit stack " ++ toString limit)).Clear
  exact .directive rfl (by decide) (oneLine_toString limit)

theorem constructorLines_clear (h : OneLine options.superClass) (limit : Nat) :
    Clear (constructorLines options limit) := by
  have hopen : (Line.directive ".method public <init>()V").Clear := ⟨rfl, by decide +kernel⟩
  have hcall : OneLine (Descriptor.constructor options.superClass) := h.append (by decide)
  have hlocals : (Line.directive ".limit locals 1").Clear := ⟨rfl, by decide +kernel⟩
  apply Clear.cons .blank
  apply Clear.cons hopen
  apply Clear.cons .blank
  apply Clear.cons (.plain rfl)
  apply Clear.cons (.operand .invokeNonVirtual rfl (by decide) hcall)
  apply Clear.cons (.plain rfl)
  apply Clear.cons .blank
  apply Clear.cons hlocals
  apply Clear.cons (stackLimit_clear limit)
  apply Clear.cons endLine_clear
  exact .single .blank

theorem opening_clear (hp : p.Unbroken) (ho : OneLine options.superClass) :
    Clear (p.opening options) := by
  have hclass : (Line.directive (".class public " ++ p.name)).Clear :=
    .directive rfl (by decide) hp.name
  have hsuper : (Line.directive (".super " ++ options.superClass)).Clear :=
    .directive rfl (by decide) ho
  have hheader : Clear (p.header options) := .cons hclass (.cons hsuper (.single .blank))
  have hsupports : Clear (Library.supports.map Library.Support.fieldLine) := by
    intro line hm
    obtain ⟨s, hs, rfl⟩ := List.mem_map.mp hm
    exact fieldDirective_clear (support_oneLine hs).1 (support_oneLine hs).2.1
  rw [opening_eq]
  exact (((hheader.append hsupports).append (declarations_clear hp.decls)).append
    (constructorLines_clear ho 1)).append (.single ⟨rfl, by decide +kernel⟩)

theorem mainCode_clear (hp : p.Unbroken) : Clear (p.mainCode options) := by
  have hc : OneLine (p.scope options).className := by
    rw [scope, Scope.className_declareAll]
    exact hp.name
  have hprologue : Clear (p.scope options).prologueCode := by
    intro line hm
    obtain ⟨s, hs, hm⟩ := List.mem_flatMap.mp hm
    obtain ⟨hfield, hdescriptor, hname⟩ := support_oneLine hs
    have hcall : OneLine (Descriptor.constructor s.className) := hname.append (by decide)
    have hsupport : Clear ((p.scope options).supportCode s) := by
      apply Clear.cons (.operand .new rfl (by decide) hname)
      apply Clear.cons (.plain rfl)
      apply Clear.cons (.operand .invokeNonVirtual rfl (by decide) hcall)
      exact .single (.operand .putStatic rfl (by decide)
        (Scope.oneLine_field hc hfield hdescriptor))
    exact hsupport line hm
  have hepilogue : Clear (p.scope options).epilogueCode := by
    obtain ⟨hfield, hdescriptor, -⟩ := support_oneLine (s := Library.runTimer) (by decide)
    apply Clear.cons .blank
    apply Clear.cons (.operand .getStatic rfl (by decide)
      (Scope.oneLine_field hc hfield hdescriptor))
    apply Clear.cons (.operand .invokeVirtual rfl (by decide) (by decide +kernel))
    apply Clear.cons .blank
    exact .single (.plain rfl)
  exact (hprologue.append (codeAll_clear hc _ hp.sites)).append hepilogue

theorem closing_clear (options : Options) (limit : Nat) : Clear (closing options limit) := by
  have hlocals : (Line.directive (".limit locals " ++ toString options.localsLimit.toNat)).Clear :=
    .directive rfl (by decide) (oneLine_toString _)
  apply Clear.cons .blank
  apply Clear.cons hlocals
  apply Clear.cons (stackLimit_clear limit)
  exact .single endLine_clear

theorem listing_clear (h : p.unit options = .ok u) (hp : p.Unbroken)
    (ho : OneLine options.superClass) : Clear u.listing := by
  rw [listing_eq h]
  exact ((opening_clear hp ho).append (.cons .blank (mainCode_clear hp))).append
    (closing_clear options _)

/-- Where no name, literal or format holds a line feed, the text of a class is its lines, one after
another and each ended by a line feed; and it determines them. -/
theorem text_determines_listing {q : Program} {o : Options} {v : ClassUnit}
    (hu : p.unit options = .ok u) (hp : p.Unbroken) (hs : OneLine options.superClass)
    (hv : q.unit o = .ok v) (hq : q.Unbroken) (ho : OneLine o.superClass) :
    Text.pieces '\n' u.text.toList = u.listing.map (·.text.toList) ++ [[]] ∧
      (u.text = v.text → u.listing = v.listing) := by
  have hpieces {w : ClassUnit} (hw : Clear w.listing) :
      Text.pieces '\n' w.text.toList = w.listing.map (·.text.toList) ++ [[]] :=
    Listing.pieces_render fun line hm => (hw line hm).oneLine
  have hcu := listing_clear hu hp hs
  have hcv := listing_clear hv hq ho
  refine ⟨hpieces hcu, fun htext => ?_⟩
  have hlines : u.listing.map (·.text.toList) ++ [[]] = v.listing.map (·.text.toList) ++ [[]] := by
    rw [← hpieces hcu, ← hpieces hcv, htext]
  exact Listing.eq_of_map_text_eq (fun line hm => (hcu line hm).legible)
    (fun line hm => (hcv line hm).legible) (List.append_cancel_right hlines)

theorem countdown_unbroken : countdown.Unbroken :=
  ⟨by decide, by decide, by decide +kernel⟩

/-- The countdown with its source, which is not echoed, has the text of the countdown without. -/
theorem countdown_text_determines_listing :
    ∃ u v, { countdown with source := some countdownText }.unit
        { sourceComments := false } = .ok u ∧
      countdown.unit { sourceComments := false } = .ok v ∧
      Text.pieces '\n' u.text.toList = u.listing.map (·.text.toList) ++ [[]] ∧
      u.text = v.text ∧ u.listing = v.listing := by
  have hbroken : { countdown with source := some countdownText }.Unbroken :=
    ⟨countdown_unbroken.name, countdown_unbroken.decls, countdown_unbroken.sites⟩
  have hsource : { countdown with source := some countdownText }.sites.findSome? Site.defect? =
      none := rfl
  have hsound : countdown.sites.findSome? Site.defect? = none := rfl
  obtain ⟨u, hu⟩ := exists_unit_of_no_defect hsource { sourceComments := false }
  obtain ⟨v, hv⟩ := exists_unit_of_no_defect hsound { sourceComments := false }
  have htext : u.text = v.text := by
    have hopening : { countdown with source := some countdownText }.opening
        { sourceComments := false } = countdown.opening { sourceComments := false } := rfl
    have hcode : { countdown with source := some countdownText }.mainCode
        { sourceComments := false } = countdown.mainCode { sourceComments := false } := by
      decide +kernel
    have hlimit : { countdown with source := some countdownText }.stackLimit
        { sourceComments := false } = countdown.stackLimit { sourceComments := false } := by
      decide +kernel
    rw [ClassUnit.text, ClassUnit.text, listing_eq hu, listing_eq hv, hopening, hcode, hlimit]
  obtain ⟨hpieces, hlisting⟩ :=
    text_determines_listing hu hbroken (by decide) hv countdown_unbroken (by decide)
  exact ⟨u, v, hu, hv, hpieces, htext, hlisting htext⟩

end Program

end StackLowering
