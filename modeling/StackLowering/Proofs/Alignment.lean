import StackLowering.Proofs.ClassLayout
import StackLowering.Proofs.Flow

/-!
Alignment of lowered code. Conditionals and loops only arrange the code of assignments, conditions
and prints between labels and jumps. So if a state is left as it was by the code of each of these
parts, and by labels, jumps and lines that are no operation, then the code of any statements is
aligned at that state, and every path through the main method meets the states of the text.
-/
namespace StackLowering

open Listing

/-- Properties of the parts of statements. -/
structure PartProperty where
  assign : Variable → Expr → Prop
  cond : Expr → Prop
  print : String → List Expr → Prop

mutual

/-- Every part of a statement has its property. -/
def Stmt.Every (P : PartProperty) : Stmt → Prop
  | .assign target value _ => P.assign target value
  | .block body _ => EveryPart P body
  | .ifThen cond body _ => P.cond cond ∧ EveryPart P body
  | .ifElse cond body alternative _ => P.cond cond ∧ EveryPart P alternative ∧ EveryPart P body
  | .loop body cond _ => EveryPart P body ∧ P.cond cond
  | .print format args _ => P.print format args

/-- Every part of statements has its property. -/
def EveryPart (P : PartProperty) : List Stmt → Prop
  | [] => True
  | s :: ss => s.Every P ∧ EveryPart P ss

end

mutual

theorem Stmt.every_of_forall {P : PartProperty} (ha : ∀ target value, P.assign target value)
    (hc : ∀ cond, P.cond cond) (hp : ∀ format args, P.print format args) (s : Stmt) :
    s.Every P := by
  cases s with
  | assign target value span => exact ha target value
  | block body span => exact everyPart_of_forall ha hc hp body
  | ifThen cond body span => exact ⟨hc cond, everyPart_of_forall ha hc hp body⟩
  | ifElse cond body alternative span =>
    exact ⟨hc cond, everyPart_of_forall ha hc hp alternative, everyPart_of_forall ha hc hp body⟩
  | loop body cond span => exact ⟨everyPart_of_forall ha hc hp body, hc cond⟩
  | print format args span => exact hp format args

theorem everyPart_of_forall {P : PartProperty} (ha : ∀ target value, P.assign target value)
    (hc : ∀ cond, P.cond cond) (hp : ∀ format args, P.print format args) (ss : List Stmt) :
    EveryPart P ss := by
  cases ss with
  | nil => trivial
  | cons s ss => exact ⟨s.every_of_forall ha hc hp, everyPart_of_forall ha hc hp ss⟩

end

/-- Both of two properties. -/
def PartProperty.and (P Q : PartProperty) : PartProperty where
  assign target value := P.assign target value ∧ Q.assign target value
  cond cond := P.cond cond ∧ Q.cond cond
  print format args := P.print format args ∧ Q.print format args

mutual

theorem Stmt.Every.and {P Q : PartProperty} {s : Stmt} (hp : s.Every P) (hq : s.Every Q) :
    s.Every (P.and Q) := by
  cases s with
  | assign target value span => exact ⟨hp, hq⟩
  | block body span => exact EveryPart.and hp hq
  | ifThen cond body span => exact ⟨⟨hp.1, hq.1⟩, EveryPart.and hp.2 hq.2⟩
  | ifElse cond body alternative span =>
    exact ⟨⟨hp.1, hq.1⟩, EveryPart.and hp.2.1 hq.2.1, EveryPart.and hp.2.2 hq.2.2⟩
  | loop body cond span => exact ⟨EveryPart.and hp.1 hq.1, ⟨hp.2, hq.2⟩⟩
  | print format args span => exact ⟨hp, hq⟩

theorem EveryPart.and {P Q : PartProperty} {ss : List Stmt} (hp : EveryPart P ss)
    (hq : EveryPart Q ss) : EveryPart (P.and Q) ss := by
  cases ss with
  | nil => trivial
  | cons s ss => exact ⟨hp.1.and hq.1, EveryPart.and hp.2 hq.2⟩

end

/-- Lines that leave the operand stack alone: echoes of the source, labels, and jumps that are taken
in any case. -/
inductive Line.Still : Line → Prop
  | lineDirective (n : UInt32) : Still (.directive (lineDirectiveText n))
  | comment (text : String) : Still (.comment text)
  | blank : Still .blank
  | label (l : Label) : Still (.label l)
  | goto (l : Label) : Still (.branch .goto l)

theorem Scope.annotationLines_still {scope : Scope} {cursor : Cursor} {span : Span} {line : Line}
    (h : line ∈ scope.annotationLines cursor span) :
    line.Still ∧ line.defined? = none ∧ line.target? = none := by
  unfold annotationLines at h
  split at h
  · rw [echoLines, List.mem_append] at h
    rcases h with h | h
    · split at h
      · split at h
        · simp only [List.mem_cons, List.not_mem_nil, or_false] at h
          rcases h with rfl | rfl
          · exact ⟨.blank, rfl, rfl⟩
          · exact ⟨.comment _, rfl, rfl⟩
        · exact absurd h List.not_mem_nil
      · exact absurd h List.not_mem_nil
    · split at h
      · cases List.mem_singleton.mp h
        exact ⟨.lineDirective _, rfl, rfl⟩
      · exact absurd h List.not_mem_nil
  · exact absurd h List.not_mem_nil

/-- A state that the code of all parts with their properties leaves as it was. -/
structure Keeps {S : Type} (effect : Line → S → Option S) (rest : S) (scope : Scope)
    (P : PartProperty) : Prop where
  still : ∀ line : Line, line.Still → effect line rest = some rest
  assign : ∀ target value, P.assign target value → Aligned effect rest rest
    (value.code scope ++ [.instruction .putStatic (some (scope.fieldFor target).text)]) rest
  cond : ∀ cond target, P.cond cond → Aligned effect rest rest (cond.branchCode scope target) rest
  print : ∀ format args text, P.print format args → formatText? format = some text →
    Aligned effect rest rest (printCode scope text args) rest

namespace Keeps

variable {S : Type} {effect : Line → S → Option S} {rest : S} {scope : Scope} {P : PartProperty}

theorem label (h : Keeps effect rest scope P) (l : Label) :
    Aligned effect rest rest [.label l] rest := .label (h.still _ (.label l)) .nil

theorem goto (h : Keeps effect rest scope P) (l : Label) :
    Aligned effect rest rest [.branch .goto l] rest := .branch (h.still _ (.goto l)) .nil

theorem annotation (h : Keeps effect rest scope P) (cursor : Cursor) (span : Span) :
    Aligned effect rest rest (scope.annotationLines cursor span) rest := by
  have hall : ∀ line ∈ scope.annotationLines cursor span,
      line.Still ∧ line.defined? = none ∧ line.target? = none :=
    fun line => Scope.annotationLines_still
  generalize scope.annotationLines cursor span = ls at hall
  induction ls with
  | nil => exact .nil
  | cons line ls ih =>
    obtain ⟨hs, hd, ht⟩ := hall line List.mem_cons_self
    exact .cons (h.still line hs) hd ht (ih fun l hl => hall l (List.mem_cons_of_mem line hl))

mutual

theorem code (h : Keeps effect rest scope P) (cursor : Cursor) (s : Stmt) (hs : s.Every P) :
    Aligned effect rest rest (s.code scope cursor) rest := by
  cases s with
  | assign target value span => exact h.assign target value hs
  | block body span => exact codeAll h cursor body hs
  | ifThen cond body span =>
    obtain ⟨hc, hb⟩ := hs
    have hmid := (h.goto ⟨cursor.label + 2⟩).append (h.label ⟨cursor.label + 1⟩)
    exact ((((h.label _).append (h.cond cond _ hc)).append hmid).append
      (codeAll h _ body hb)).append (h.label _)
  | ifElse cond body alternative span =>
    obtain ⟨hc, ha, hb⟩ := hs
    have hmid := (h.goto ⟨cursor.label + 2⟩).append (h.label ⟨cursor.label + 1⟩)
    have hend := (h.goto ⟨cursor.label + 2⟩).append (h.label ⟨cursor.label + 2⟩)
    exact (((((h.label _).append (h.cond cond _ hc)).append (codeAll h _ alternative ha)).append
      hmid).append (codeAll h _ body hb)).append hend
  | loop body cond span =>
    obtain ⟨hb, hc⟩ := hs
    exact ((h.label _).append (codeAll h _ body hb)).append (h.cond cond _ hc)
  | print format args span =>
    simp only [Stmt.code]
    cases hf : formatText? format with
    | none => exact .nil
    | some text => exact h.print format args text hs hf

theorem codeAll (h : Keeps effect rest scope P) (cursor : Cursor) (ss : List Stmt)
    (hs : EveryPart P ss) :
    Aligned effect rest rest (StackLowering.codeAll scope cursor ss) rest := by
  cases ss with
  | nil => exact .nil
  | cons s ss =>
    obtain ⟨hs, hss⟩ := hs
    exact ((h.annotation cursor s.span).append (code h _ s hs)).append (codeAll h _ ss hss)

end

end Keeps

/-! A property of lines is an effect on no state, so code whose parts have it has it throughout. -/

open Classical in
/-- Let lines with a property pass. -/
noncomputable def Line.passing (Q : Line → Prop) (line : Line) (_ : Unit) : Option Unit :=
  if Q line then some () else none

theorem aligned_passing_iff {Q : Line → Prop} {ls : List Line} :
    Aligned (Line.passing Q) () () ls () ↔ ∀ line ∈ ls, Q line := by
  induction ls with
  | nil => exact ⟨fun _ line h => absurd h List.not_mem_nil, fun _ => rfl⟩
  | cons line ls ih =>
    rw [List.forall_mem_cons, ← ih]
    constructor
    · rintro ⟨⟨⟩, h, -, -, hls⟩
      refine ⟨?_, hls⟩
      unfold Line.passing at h
      split at h
      · assumption
      · contradiction
    · rintro ⟨h, hls⟩
      exact ⟨(), if_pos h, fun _ => rfl, fun _ => rfl, hls⟩

/-- Lines of operations other than the return from the method. -/
def Line.Operates (line : Line) : Prop := ∃ op, line.opcode? = some op ∧ op ≠ .ret

/-- An operation that takes or gives something is no return. -/
theorem Opcode.ne_ret_of_arity? {op : Opcode} {a : Nat × Nat} (h : op.arity? = some a)
    (ha : a ≠ (0, 0)) : op ≠ .ret := by
  rintro rfl
  exact ha (Option.some.inj h).symm

namespace Expr

theorem operates_of_mem_code {scope : Scope} {e : Expr} {line : Line} (h : line ∈ e.code scope) :
    line.Operates := by
  induction e with
  | literal kind text tag span =>
    cases List.mem_singleton.mp h
    exact ⟨_, rfl, nofun⟩
  | var v =>
    cases List.mem_singleton.mp h
    exact ⟨_, rfl, nofun⟩
  | binary op left right tag span ihl ihr =>
    simp only [code, List.mem_append, List.mem_singleton] at h
    rcases h with (h | h) | rfl
    · exact ihl h
    · exact ihr h
    · exact ⟨_, rfl, Opcode.ne_ret_of_arity? (op.arity?_arithmeticOr _ _) (by decide)⟩
  | negate operand tag span ih =>
    rcases List.mem_append.mp h with h | h
    · exact ih h
    · cases List.mem_singleton.mp h
      exact ⟨_, rfl, Opcode.ne_ret_of_arity? operand.tag.arity?_negationOr (by decide)⟩

theorem operates_of_mem_branchCode {scope : Scope} {target : Label} {e : Expr} {line : Line}
    (h : line ∈ e.branchCode scope target) : line.Operates := by
  cases e with
  | binary op left right tag span =>
    simp only [branchCode, List.mem_append] at h
    rcases h with (h | h) | h
    · exact operates_of_mem_code h
    · exact operates_of_mem_code h
    · rcases op.comparisonOr_cases left.tag right.tag with ⟨b, hj, hb⟩ | ⟨c, b, hj, hc, hb⟩
      · rw [hj] at h
        cases List.mem_singleton.mp h
        exact ⟨b, rfl, Opcode.ne_ret_of_arity? hb (by decide)⟩
      · rw [hj] at h
        simp only [Jump.lines, List.mem_cons, List.not_mem_nil, or_false] at h
        rcases h with rfl | rfl
        · exact ⟨c, rfl, Opcode.ne_ret_of_arity? hc (by decide)⟩
        · exact ⟨b, rfl, Opcode.ne_ret_of_arity? hb (by decide)⟩
  | _ => exact absurd h List.not_mem_nil

end Expr

theorem operates_of_mem_argumentsCode {scope : Scope} {index : Nat} {args : List Expr}
    {line : Line} (h : line ∈ argumentsCode scope index args) : line.Operates := by
  induction args generalizing index with
  | nil => exact absurd h List.not_mem_nil
  | cons arg args ih =>
    simp only [argumentsCode, List.mem_append, List.mem_cons, List.not_mem_nil, or_false] at h
    rcases h with (((rfl | rfl) | h) | (rfl | rfl)) | h
    · exact ⟨_, rfl, by decide⟩
    · exact ⟨_, rfl, by decide⟩
    · exact Expr.operates_of_mem_code h
    · exact ⟨_, rfl, by decide⟩
    · exact ⟨_, rfl, by decide⟩
    · exact ih h

theorem operates_of_mem_printCode {scope : Scope} {text : String} {args : List Expr} {line : Line}
    (h : line ∈ printCode scope text args) : line.Operates := by
  simp only [printCode, List.mem_append, List.mem_cons, List.not_mem_nil, or_false] at h
  rcases h with ((rfl | rfl | rfl | rfl) | h) | (rfl | rfl)
  case inl.inr => exact operates_of_mem_argumentsCode h
  all_goals exact ⟨_, rfl, by decide⟩

theorem keeps_passing (scope : Scope) :
    Keeps (Line.passing fun line => line.Still ∨ line.Operates) () scope
      ⟨fun _ _ => True, fun _ => True, fun _ _ => True⟩ where
  still line h := if_pos (.inl h)
  assign target value _ := by
    refine aligned_passing_iff.mpr fun line hm => .inr ?_
    rcases List.mem_append.mp hm with hm | hm
    · exact Expr.operates_of_mem_code hm
    · cases List.mem_singleton.mp hm
      exact ⟨_, rfl, nofun⟩
  cond cond target _ :=
    aligned_passing_iff.mpr fun line hm => .inr (Expr.operates_of_mem_branchCode hm)
  print format args text _ _ :=
    aligned_passing_iff.mpr fun line hm => .inr (operates_of_mem_printCode hm)

/-- Code of statements has no other lines. -/
theorem still_or_operates_of_mem_codeAll {scope : Scope} {cursor : Cursor} {ss : List Stmt}
    {line : Line} (h : line ∈ codeAll scope cursor ss) : line.Still ∨ line.Operates := by
  have hk := (keeps_passing scope).codeAll cursor ss
    (everyPart_of_forall (fun _ _ => trivial) (fun _ => trivial) (fun _ _ => trivial) ss)
  exact aligned_passing_iff.mp hk line h

namespace Program

variable {S : Type} {effect : Line → S → Option S} {rest : S} {P : PartProperty}

/-- The main method returns at its last line and nowhere else. -/
theorem mainCode_return (p : Program) (options : Options) :
    ∃ front, .blank :: p.mainCode options = front ++ [.instruction .ret none] ∧
      ∀ line ∈ front, line.opcode? ≠ some .ret := by
  refine ⟨.blank :: (p.scope options).prologueCode ++ codeAll (p.scope options) ⟨0, 0⟩ p.body ++
    (p.scope options).epilogueCode.dropLast, by simp [mainCode, Scope.epilogueCode], ?_⟩
  intro line hm hret
  rcases List.mem_append.mp hm with hm | hm
  · rcases List.mem_append.mp hm with hm | hm
    · simp only [Scope.prologueCode, Scope.supportCode, List.mem_cons, List.mem_flatMap,
        List.not_mem_nil, or_false] at hm
      rcases hm with rfl | ⟨s, -, rfl | rfl | rfl | rfl⟩ <;> simp [Line.opcode?] at hret
    · rcases still_or_operates_of_mem_codeAll hm with hs | ⟨op, hop, hne⟩
      · cases hs <;> simp [Line.opcode?] at hret
      · rw [hop] at hret
        exact hne (Option.some.inj hret)
  · simp only [Scope.epilogueCode, List.dropLast, List.mem_cons, List.not_mem_nil, or_false] at hm
    rcases hm with rfl | rfl | rfl | rfl <;> simp [Line.opcode?] at hret

theorem eq_nil_of_return {p : Program} {options : Options} {front back : List Line} {line : Line}
    (h : .blank :: p.mainCode options = front ++ line :: back) (hret : line.opcode? = some .ret) :
    line = .instruction .ret none ∧ back = [] := by
  obtain ⟨front', hcode, hfront'⟩ := p.mainCode_return options
  rcases List.append_eq_append_iff.mp (h.symm.trans hcode) with ⟨c, rfl, hc⟩ | ⟨c, rfl, hc⟩
  · cases c with
    | nil => simpa using hc
    | cons first c =>
      cases (List.cons.inj hc).1
      exact absurd hret (hfront' line (by simp))
  · cases c with
    | nil => simpa [eq_comm] using hc
    | cons first c => simp at hc

theorem mainCode_aligned {p : Program} {options : Options}
    (hk : Keeps effect rest (p.scope options) P) (hbody : EveryPart P p.body)
    (hmake : ∀ s ∈ Library.supports,
      Aligned effect rest rest ((p.scope options).supportCode s) rest)
    (hepi : Aligned effect rest rest (p.scope options).epilogueCode rest) :
    Aligned effect rest rest (.blank :: p.mainCode options) rest :=
  .cons (hk.still _ .blank) rfl rfl (((Aligned.flatMap hmake).append
    (hk.codeAll _ _ hbody)).append hepi)

/-- Every path through the main method meets the states of the text. -/
theorem reaches_main {p : Program} {options : Options} {u : ClassUnit}
    (h : p.unit options = .ok u) (hc : Aligned effect rest rest (.blank :: p.mainCode options) rest)
    {i : Nat} {s : S} (hr : Reaches effect u.listing (mainEntry u.listing) rest i s) :
    ∃ front line back, .blank :: p.mainCode options = front ++ line :: back ∧
      i = (p.opening options).length + front.length ∧ Aligned effect rest rest front s := by
  rw [mainEntry_listing h, listing_eq h] at hr
  refine hr.aligned hc (fun line hm => (mem_outside hm).1) ?_
  obtain ⟨front, hcode, -⟩ := p.mainCode_return options
  exact ⟨front, _, hcode, rfl⟩

end Program

end StackLowering
