import StackLowering.Proofs.ClassLayout

/-!
Labels of lowered code. The code of statements takes a run of label numbers, from the cursor's to
the one that the next statement starts with. It defines each label of the run once and branches to
no other, and nothing else in a class defines a label or branches.
-/
namespace StackLowering

open Listing

@[simp] theorem Listing.definedLabels_nil : definedLabels [] = [] := rfl

@[simp] theorem Listing.referencedLabels_nil : referencedLabels [] = [] := rfl

@[simp] theorem Line.defined?_label (l : Label) : (label l).defined? = some l := rfl
@[simp] theorem Line.defined?_instruction (op : Opcode) (operand : Option String) :
    (instruction op operand).defined? = none := rfl
@[simp] theorem Line.defined?_branch (op : Opcode) (l : Label) :
    (branch op l).defined? = none := rfl
@[simp] theorem Line.target?_label (l : Label) : (label l).target? = none := rfl
@[simp] theorem Line.target?_instruction (op : Opcode) (operand : Option String) :
    (instruction op operand).target? = none := rfl
@[simp] theorem Line.target?_branch (op : Opcode) (l : Label) :
    (branch op l).target? = some l := rfl

namespace Assembler

theorem definedLabels_written (a : Assembler) (e : Emission) :
    definedLabels (a.written e) = e.placed?.toList := by
  cases e <;> rfl

/-- What emissions write defines the labels that they place, in their order. -/
theorem definedLabels_writtenAll (a : Assembler) (es : List Emission) :
    definedLabels (a.writtenAll es) = es.filterMap Emission.placed? := by
  induction es generalizing a with
  | nil => rfl
  | cons e es ih =>
    rw [writtenAll_cons, definedLabels_append, ih, definedLabels_written]
    cases e <;> rfl

end Assembler

/-- Code that neither defines a label nor branches. -/
structure Listing.LabelFree (ls : Listing) : Prop where
  defined : definedLabels ls = []
  referenced : referencedLabels ls = []

theorem Listing.LabelFree.append {ls ms : Listing} (hl : LabelFree ls) (hm : LabelFree ms) :
    LabelFree (ls ++ ms) :=
  ⟨by rw [definedLabels_append, hl.defined, hm.defined, List.nil_append],
    by rw [referencedLabels_append, hl.referenced, hm.referenced, List.nil_append]⟩

theorem Listing.labelFree_iff {ls : Listing} :
    LabelFree ls ↔ ∀ line ∈ ls, line.defined? = none ∧ line.target? = none := by
  constructor
  · rintro ⟨hd, hr⟩ line hm
    exact ⟨List.filterMap_eq_nil_iff.mp hd line hm, List.filterMap_eq_nil_iff.mp hr line hm⟩
  · intro h
    exact ⟨List.filterMap_eq_nil_iff.mpr fun line hm => (h line hm).1,
      List.filterMap_eq_nil_iff.mpr fun line hm => (h line hm).2⟩

namespace Expr

theorem labelFree_code (scope : Scope) (e : Expr) : LabelFree (e.code scope) := by
  induction e with
  | literal kind text tag span => exact ⟨rfl, rfl⟩
  | var v => exact ⟨rfl, rfl⟩
  | binary op left right tag span ihl ihr =>
    exact ⟨by simp [code, ihl.defined, ihr.defined], by simp [code, ihl.referenced, ihr.referenced]⟩
  | negate operand tag span ih =>
    exact ⟨by simp [code, ih.defined], by simp [code, ih.referenced]⟩

@[simp] theorem definedLabels_branchCode (scope : Scope) (target : Label) (e : Expr) :
    definedLabels (e.branchCode scope target) = [] := by
  cases e with
  | binary op left right tag span =>
    rw [branchCode, definedLabels_append, definedLabels_append, (left.labelFree_code scope).defined,
      (right.labelFree_code scope).defined]
    cases op.comparisonOr left.tag right.tag <;> rfl
  | _ => rfl

/-- A condition branches to its target and nowhere else. -/
theorem referencedLabels_branchCode (scope : Scope) (target : Label) (op : Operator)
    (left right : Expr) (tag : Tag) (span : Span) :
    referencedLabels ((binary op left right tag span).branchCode scope target) = [target] := by
  rw [branchCode, referencedLabels_append, referencedLabels_append,
    (left.labelFree_code scope).referenced, (right.labelFree_code scope).referenced]
  cases op.comparisonOr left.tag right.tag <;> rfl

theorem eq_of_mem_referencedLabels_branchCode {scope : Scope} {target l : Label} {e : Expr}
    (h : l ∈ referencedLabels (e.branchCode scope target)) : l = target := by
  cases e with
  | binary op left right tag span =>
    rw [referencedLabels_branchCode] at h
    exact List.mem_singleton.mp h
  | _ => exact absurd h List.not_mem_nil

end Expr

theorem labelFree_argumentsCode (scope : Scope) (index : Nat) (args : List Expr) :
    LabelFree (argumentsCode scope index args) := by
  induction args generalizing index with
  | nil => exact ⟨rfl, rfl⟩
  | cons arg args ih =>
    have ha := arg.labelFree_code scope
    have ih := ih (index + 1)
    exact ⟨by simp [argumentsCode, ha.defined, ih.defined],
      by simp [argumentsCode, ha.referenced, ih.referenced]⟩

theorem labelFree_printCode (scope : Scope) (text : String) (args : List Expr) :
    LabelFree (printCode scope text args) := by
  have ha := labelFree_argumentsCode scope 0 args
  exact ⟨by simp [printCode, ha.defined], by simp [printCode, ha.referenced]⟩

theorem Scope.labelFree_annotationLines (scope : Scope) (cursor : Cursor) (span : Span) :
    LabelFree (scope.annotationLines cursor span) := by
  unfold annotationLines echoLines
  split
  · cases scope.options.sourceComments <;> cases scope.options.lineDirectives <;>
      cases scope.sourceLine? span.line <;> exact ⟨rfl, rfl⟩
  · exact ⟨rfl, rfl⟩

mutual

/-- Label numbers are only used up. -/
theorem Stmt.label_le_after (cursor : Cursor) (s : Stmt) :
    cursor.label ≤ (s.after cursor).label := by
  cases s with
  | assign target value span => exact Nat.le_refl _
  | block body span => exact label_le_afterAll cursor body
  | ifThen cond body span =>
    have hb := label_le_afterAll (cursor.skip 3) body
    rw [Cursor.label_skip] at hb
    rw [Stmt.after]
    omega
  | ifElse cond body alternative span =>
    have ha := label_le_afterAll (cursor.skip 3) alternative
    have hb := label_le_afterAll (afterAll (cursor.skip 3) alternative) body
    rw [Cursor.label_skip] at ha
    rw [Stmt.after]
    omega
  | loop body cond span =>
    have hb := label_le_afterAll (cursor.skip 1) body
    rw [Cursor.label_skip] at hb
    rw [Stmt.after]
    omega
  | print format args span => exact Nat.le_refl _

theorem label_le_afterAll (cursor : Cursor) (ss : List Stmt) :
    cursor.label ≤ (afterAll cursor ss).label := by
  cases ss with
  | nil => exact Nat.le_refl _
  | cons s ss =>
    have hs := s.label_le_after (cursor.moveTo s.span)
    have hss := label_le_afterAll (s.after (cursor.moveTo s.span)) ss
    rw [Cursor.label_moveTo] at hs
    exact Nat.le_trans hs hss

end

/-- How often a label is among those with numbers from `lo` up to `hi`. -/
def Label.countIn (lo hi : Nat) (l : Label) : Nat := if lo ≤ l.id ∧ l.id < hi then 1 else 0

theorem Label.countIn_self (n : Nat) (l : Label) : l.countIn n n = 0 := by
  unfold countIn
  split <;> omega

theorem Label.countIn_add {lo mid hi : Nat} (h : lo ≤ mid) (h' : mid ≤ hi) (l : Label) :
    l.countIn lo mid + l.countIn mid hi = l.countIn lo hi := by
  unfold countIn
  split <;> split <;> split <;> omega

/-- The three labels of a conditional come before those of its bodies. -/
theorem Label.countIn_three {c n : Nat} (h : c + 3 ≤ n) (l : Label) :
    l.countIn c (c + 1) + l.countIn (c + 1) (c + 1 + 1) + l.countIn (c + 2) (c + 2 + 1) +
      l.countIn (c + 3) n = l.countIn c n := by
  rw [l.countIn_add (by omega) (by omega), l.countIn_add (by omega) (by omega),
    l.countIn_add (by omega) h]

theorem Label.count_singleton (n : Nat) (l : Label) :
    [(⟨n⟩ : Label)].count l = l.countIn n (n + 1) := by
  obtain ⟨m⟩ := l
  have hid : (⟨n⟩ : Label) = ⟨m⟩ ↔ n ≤ m ∧ m < n + 1 := by
    rw [Label.mk.injEq]
    omega
  simp [List.count_singleton, countIn, hid]

mutual

/-- The code of a statement defines each label of its run once. -/
theorem Stmt.count_definedLabels_code (scope : Scope) (cursor : Cursor) (s : Stmt) (l : Label) :
    (definedLabels (s.code scope cursor)).count l =
      l.countIn cursor.label (s.after cursor).label := by
  cases s with
  | assign target value span =>
    simp [Stmt.code, Stmt.after, (value.labelFree_code scope).defined, Label.countIn_self]
  | block body span => exact count_definedLabels_codeAll scope cursor body l
  | ifThen cond body span =>
    have hb := count_definedLabels_codeAll scope (cursor.skip 3) body l
    have hle := label_le_afterAll (cursor.skip 3) body
    have hdef : definedLabels ((Stmt.ifThen cond body span).code scope cursor) =
        [⟨cursor.label⟩] ++ [⟨cursor.label + 1⟩] ++
          definedLabels (codeAll scope (cursor.skip 3) body) ++
          [⟨cursor.label + 2⟩] := by
      simp [Stmt.code]
    have hthree := l.countIn_three hle
    rw [Cursor.label_skip] at hb
    simp only [hdef, List.count_append, Label.count_singleton, hb, Stmt.after]
    omega
  | ifElse cond body alternative span =>
    have ha := count_definedLabels_codeAll scope (cursor.skip 3) alternative l
    have hb := count_definedLabels_codeAll scope (afterAll (cursor.skip 3) alternative) body l
    have hla := label_le_afterAll (cursor.skip 3) alternative
    have hlb := label_le_afterAll (afterAll (cursor.skip 3) alternative) body
    have hdef : definedLabels ((Stmt.ifElse cond body alternative span).code scope cursor) =
        [⟨cursor.label⟩] ++
          definedLabels (codeAll scope (cursor.skip 3) alternative) ++
          [⟨cursor.label + 1⟩] ++
          definedLabels (codeAll scope (afterAll (cursor.skip 3) alternative) body) ++
          [⟨cursor.label + 2⟩] := by
      simp [Stmt.code]
    have hthree := l.countIn_three (Nat.le_trans hla hlb)
    have hbodies := l.countIn_add hla hlb
    rw [Cursor.label_skip] at ha hbodies
    simp only [hdef, List.count_append, Label.count_singleton, ha, hb, Stmt.after]
    omega
  | loop body cond span =>
    have hb := count_definedLabels_codeAll scope (cursor.skip 1) body l
    have hle := label_le_afterAll (cursor.skip 1) body
    have hdef : definedLabels ((Stmt.loop body cond span).code scope cursor) =
        [⟨cursor.label⟩] ++
          definedLabels (codeAll scope (cursor.skip 1) body) := by
      simp [Stmt.code]
    rw [hdef, List.count_append, Label.count_singleton, hb]
    exact Label.countIn_add (Nat.le_succ _) hle l
  | print format args span =>
    simp only [Stmt.code, Stmt.after, Label.countIn_self]
    cases formatText? format with
    | none => rfl
    | some text => simp [(labelFree_printCode scope text args).defined]

theorem count_definedLabels_codeAll (scope : Scope) (cursor : Cursor) (ss : List Stmt) (l : Label) :
    (definedLabels (codeAll scope cursor ss)).count l =
      l.countIn cursor.label (afterAll cursor ss).label := by
  cases ss with
  | nil => exact (Label.countIn_self _ l).symm
  | cons s ss =>
    have hs := s.count_definedLabels_code scope (cursor.moveTo s.span) l
    have hss := count_definedLabels_codeAll scope (s.after (cursor.moveTo s.span)) ss l
    have hle := s.label_le_after (cursor.moveTo s.span)
    rw [Cursor.label_moveTo] at hs hle
    rw [codeAll, definedLabels_append, definedLabels_append,
      (scope.labelFree_annotationLines cursor s.span).defined, List.nil_append, List.count_append,
      hs, hss]
    exact Label.countIn_add hle (label_le_afterAll _ ss) l

end

mutual

/-- The code of a statement branches to labels of its run only. -/
theorem Stmt.mem_referencedLabels_code {scope : Scope} {cursor : Cursor} {s : Stmt} {l : Label}
    (h : l ∈ referencedLabels (s.code scope cursor)) :
    cursor.label ≤ l.id ∧ l.id < (s.after cursor).label := by
  cases s with
  | assign target value span =>
    simp [Stmt.code, (value.labelFree_code scope).referenced] at h
  | block body span => exact mem_referencedLabels_codeAll h
  | ifThen cond body span =>
    have hle : cursor.label + 3 ≤ _ := label_le_afterAll (cursor.skip 3) body
    simp only [Stmt.code, referencedLabels_append, referencedLabels_cons, Line.target?_label,
      Line.target?_branch, Option.toList_none, Option.toList_some, referencedLabels_nil,
      List.append_nil, List.nil_append, List.mem_append, List.mem_singleton] at h
    rw [Stmt.after]
    rcases h with (h | rfl) | h
    · cases Expr.eq_of_mem_referencedLabels_branchCode h
      exact ⟨Nat.le_add_right _ 1, by change cursor.label + 1 < _; omega⟩
    · exact ⟨Nat.le_add_right _ 2, by change cursor.label + 2 < _; omega⟩
    · obtain ⟨hlo, hhi⟩ := mem_referencedLabels_codeAll h
      exact ⟨Nat.le_trans (Nat.le_add_right _ 3) hlo, hhi⟩
  | ifElse cond body alternative span =>
    have hla : cursor.label + 3 ≤ _ := label_le_afterAll (cursor.skip 3) alternative
    have hlb := label_le_afterAll (afterAll (cursor.skip 3) alternative) body
    simp only [Stmt.code, referencedLabels_append, referencedLabels_cons, Line.target?_label,
      Line.target?_branch, Option.toList_none, Option.toList_some, referencedLabels_nil,
      List.append_nil, List.nil_append, List.mem_append, List.mem_singleton] at h
    rw [Stmt.after]
    have hjoin : cursor.label ≤ cursor.label + 2 ∧ cursor.label + 2 <
        (afterAll (afterAll (cursor.skip 3) alternative) body).label :=
      ⟨Nat.le_add_right _ 2, by omega⟩
    rcases h with (((h | h) | rfl) | h) | rfl
    · cases Expr.eq_of_mem_referencedLabels_branchCode h
      exact ⟨Nat.le_add_right _ 1, by change cursor.label + 1 < _; omega⟩
    · obtain ⟨hlo, hhi⟩ := mem_referencedLabels_codeAll h
      exact ⟨Nat.le_trans (Nat.le_add_right _ 3) hlo, Nat.lt_of_lt_of_le hhi hlb⟩
    · exact hjoin
    · obtain ⟨hlo, hhi⟩ := mem_referencedLabels_codeAll h
      exact ⟨by omega, hhi⟩
    · exact hjoin
  | loop body cond span =>
    have hle : cursor.label + 1 ≤ _ := label_le_afterAll (cursor.skip 1) body
    simp only [Stmt.code, referencedLabels_append, referencedLabels_cons, Line.target?_label,
      Option.toList_none, referencedLabels_nil, List.append_nil, List.nil_append,
      List.mem_append] at h
    rw [Stmt.after]
    rcases h with h | h
    · obtain ⟨hlo, hhi⟩ := mem_referencedLabels_codeAll h
      exact ⟨Nat.le_trans (Nat.le_add_right _ 1) hlo, hhi⟩
    · cases Expr.eq_of_mem_referencedLabels_branchCode h
      exact ⟨Nat.le_refl _, hle⟩
  | print format args span =>
    simp only [Stmt.code] at h
    cases hf : formatText? format with
    | none => simp [hf] at h
    | some text => simp [hf, (labelFree_printCode scope text args).referenced] at h

theorem mem_referencedLabels_codeAll {scope : Scope} {cursor : Cursor} {ss : List Stmt} {l : Label}
    (h : l ∈ referencedLabels (codeAll scope cursor ss)) :
    cursor.label ≤ l.id ∧ l.id < (afterAll cursor ss).label := by
  cases ss with
  | nil => exact absurd h List.not_mem_nil
  | cons s ss =>
    have hle := s.label_le_after (cursor.moveTo s.span)
    have hles := label_le_afterAll (s.after (cursor.moveTo s.span)) ss
    rw [Cursor.label_moveTo] at hle
    rw [codeAll, referencedLabels_append, referencedLabels_append,
      (scope.labelFree_annotationLines cursor s.span).referenced, List.nil_append,
      List.mem_append] at h
    rcases h with h | h
    · obtain ⟨hlo, hhi⟩ := s.mem_referencedLabels_code h
      rw [Cursor.label_moveTo] at hlo
      exact ⟨hlo, Nat.lt_of_lt_of_le hhi hles⟩
    · obtain ⟨hlo, hhi⟩ := mem_referencedLabels_codeAll h
      exact ⟨Nat.le_trans hle hlo, hhi⟩

end

namespace Scope

theorem labelFree_prologueCode (scope : Scope) : LabelFree scope.prologueCode :=
  ⟨by simp [prologueCode, supportCode, Library.supports],
    by simp [prologueCode, supportCode, Library.supports]⟩

theorem labelFree_epilogueCode (scope : Scope) : LabelFree scope.epilogueCode := ⟨rfl, rfl⟩

end Scope

namespace Program

/-- The code of a program's body is the only place of labels and branches in its class. -/
theorem listing_body {p : Program} {options : Options} {u : ClassUnit}
    (h : p.unit options = .ok u) :
    ∃ before after, u.listing = before ++ codeAll (p.scope options) ⟨0, 0⟩ p.body ++ after ∧
      LabelFree before ∧ LabelFree after := by
  have hopening : LabelFree (p.opening options) := labelFree_iff.mpr fun line hm =>
    mem_outside (List.mem_append_left (closing options (p.stackLimit options)) hm)
  have hclosing : LabelFree (closing options (p.stackLimit options)) :=
    labelFree_iff.mpr fun line hm => mem_outside (List.mem_append_right (p.opening options) hm)
  refine ⟨p.opening options ++ (.blank :: (p.scope options).prologueCode),
    (p.scope options).epilogueCode ++ closing options (p.stackLimit options), ?_, ?_, ?_⟩
  · rw [listing_eq h, mainCode]
    simp
  · have hblank : LabelFree [.blank] := ⟨rfl, rfl⟩
    exact hopening.append (hblank.append (p.scope options).labelFree_prologueCode)
  · exact (p.scope options).labelFree_epilogueCode.append hclosing

end Program

end StackLowering
