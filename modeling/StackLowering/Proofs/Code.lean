import StackLowering.Proofs.Depth
import StackLowering.Proofs.Steps

/-!
The code of a tree. What the steps of a tree write is a function of the tree, of the scope and of
the cursor: `Expr.code` for a value, `Expr.branchCode` for a condition, `Stmt.code` and `codeAll`
for statements. Lowering a tree without defects writes that code. Everything proved about the lines
of a method is proved by induction over these functions.
-/
namespace StackLowering

open Listing

/-! What emissions write. -/

namespace Emission

/-- The label that an emission places. -/
def placed? : Emission → Option Label
  | .label l => some l
  | _ => none

/-- Operations that branch have a target and no others do, and invoked methods have an effect. -/
def isSound : Emission → Bool
  | .instruction op _ => !op.isBranch
  | .invoke op method =>
    !op.isBranch && (Invocation.effect? method (Assembler.hasReceiver op)).isSome
  | .branch op _ => op.isBranch
  | _ => true

/-- Whether an emission is counted and sound. -/
def isProper (e : Emission) : Bool := e.isCounted && e.isSound

/-- Emissions that write `ls` where the cursor is `c`, and lead to the cursor `d`: to its line and
to its label number. -/
structure Build (c : Cursor) (es : List Emission) (ls : List Line) (d : Cursor) : Prop where
  written : ∀ a : Assembler, a.line = c.line → a.writtenAll es = ls
  line : ∀ a : Assembler, a.line = c.line → (a.emitAll es).line = d.line
  labels : c.label + es.count .newLabel = d.label
  proper : ∀ e ∈ es, e.isProper = true

namespace Build

theorem nil (c : Cursor) : Build c [] [] c :=
  ⟨fun _ _ => rfl, fun _ h => h, rfl, fun _ he => absurd he List.not_mem_nil⟩

/-- Emissions that neither read nor move the current line. -/
theorem of_still {c d : Cursor} {es : List Emission} {ls : List Line}
    (h : ∀ a : Assembler, a.writtenAll es = ls) (hl : ∀ a : Assembler, (a.emitAll es).line = a.line)
    (hd : d = c.skip (es.count .newLabel)) (hp : es.all isProper = true) : Build c es ls d := by
  subst hd
  exact ⟨fun a _ => h a, fun a ha => (hl a).trans ha, rfl, List.all_eq_true.mp hp⟩

theorem append {c d k : Cursor} {es fs : List Emission} {ls ms : List Line}
    (he : Build c es ls d) (hf : Build d fs ms k) : Build c (es ++ fs) (ls ++ ms) k := by
  refine ⟨fun a ha => ?_, fun a ha => ?_, ?_, fun e hm => ?_⟩
  · rw [Assembler.writtenAll_append, he.written a ha, hf.written _ (he.line a ha)]
  · rw [Assembler.emitAll_append, hf.line _ (he.line a ha)]
  · rw [List.count_append, ← hf.labels, ← he.labels, Nat.add_assoc]
  · rcases List.mem_append.mp hm with hm | hm
    · exact he.proper e hm
    · exact hf.proper e hm

end Build

end Emission

namespace Scope

/-- The lines that echo a source line. -/
def echoLines (scope : Scope) (n : UInt32) : List Line :=
  (if scope.options.sourceComments then
    match scope.sourceLine? n with
    | some text => [.blank, .comment text]
    | none => []
  else []) ++
    if scope.options.lineDirectives then [.directive (lineDirectiveText n)] else []

/-- The lines before a statement: the echo of its line, if the statement moves to a new one. -/
def annotationLines (scope : Scope) (cursor : Cursor) (span : Span) : List Line :=
  if span.known ∧ span.line ≠ cursor.line then scope.echoLines span.line else []

end Scope

/-- The lines of a jump. -/
def Jump.lines (j : Jump) (target : Label) : List Line :=
  match j with
  | .direct branch => [.branch branch target]
  | .compared compare branch => [.instruction compare none, .branch branch target]

namespace Expr

/-- The lines that push the value of an expression. -/
def code (scope : Scope) : Expr → List Line
  | literal _ text _ _ => [.instruction .ldc (some text)]
  | var v => [.instruction .getStatic (some (scope.fieldFor v).text)]
  | binary op left right _ _ =>
    left.code scope ++ right.code scope ++ [.instruction (op.arithmeticOr left.tag right.tag) none]
  | negate operand _ _ => operand.code scope ++ [.instruction operand.tag.negationOr none]

/-- The lines that jump when a condition holds. -/
def branchCode (scope : Scope) (target : Label) : Expr → List Line
  | binary op left right _ _ =>
    left.code scope ++ right.code scope ++ (op.comparisonOr left.tag right.tag).lines target
  | _ => []

end Expr

/-- The lines that fill the array of a print statement from an index on. -/
def argumentsCode (scope : Scope) : Nat → List Expr → List Line
  | _, [] => []
  | index, arg :: args =>
    [.instruction .dup none, .instruction .ldc (some (toString index))] ++ arg.code scope ++
      [.instruction .invokeStatic (some (Library.boxing arg.tag)), .instruction .aastore none] ++
      argumentsCode scope (index + 1) args

def printCode (scope : Scope) (text : String) (args : List Expr) : List Line :=
  [.instruction .getStatic (some Library.systemOut), .instruction .ldc (some s!"\"{text}\""),
    .instruction .ldc (some (toString args.length)),
    .instruction .anewarray (some Library.objectClass)] ++
    argumentsCode scope 0 args ++
    [.instruction .invokeVirtual (some Library.printf), .instruction .pop none]

mutual

/-- The lines of a statement without the echo of its own line. -/
def Stmt.code (scope : Scope) (cursor : Cursor) : Stmt → List Line
  | .assign target value _ =>
    value.code scope ++ [.instruction .putStatic (some (scope.fieldFor target).text)]
  | .block body _ => codeAll scope cursor body
  | .ifThen cond body _ =>
    [.label ⟨cursor.label⟩] ++ cond.branchCode scope ⟨cursor.label + 1⟩ ++
      [.branch .goto ⟨cursor.label + 2⟩, .label ⟨cursor.label + 1⟩] ++
      codeAll scope (cursor.skip 3) body ++
      [.label ⟨cursor.label + 2⟩]
  | .ifElse cond body alternative _ =>
    [.label ⟨cursor.label⟩] ++ cond.branchCode scope ⟨cursor.label + 1⟩ ++
      codeAll scope (cursor.skip 3) alternative ++
      [.branch .goto ⟨cursor.label + 2⟩, .label ⟨cursor.label + 1⟩] ++
      codeAll scope (afterAll (cursor.skip 3) alternative) body ++
      [.branch .goto ⟨cursor.label + 2⟩, .label ⟨cursor.label + 2⟩]
  | .loop body cond _ =>
    [.label ⟨cursor.label⟩] ++ codeAll scope (cursor.skip 1) body ++
      cond.branchCode scope ⟨cursor.label⟩
  | .print format args _ =>
    match formatText? format with
    | some text => printCode scope text args
    | none => []

/-- The lines of statements, each after the echo of its line. -/
def codeAll (scope : Scope) (cursor : Cursor) : List Stmt → List Line
  | [] => []
  | s :: ss =>
    scope.annotationLines cursor s.span ++ s.code scope (cursor.moveTo s.span) ++
      codeAll scope (s.after (cursor.moveTo s.span)) ss

end

/-! The steps of a tree write its code. -/

theorem Operator.isProper_arithmeticOr (op : Operator) (left right : Tag) :
    (Emission.plain (op.arithmeticOr left right)).isProper = true := by
  rcases op with op | rel <;> cases left <;> cases right <;> rfl

theorem Tag.isProper_negationOr (t : Tag) : (Emission.plain t.negationOr).isProper = true := by
  cases t <;> rfl

theorem Operator.isProper_comparisonOr (op : Operator) (left right : Tag) (target : Label) :
    ((op.comparisonOr left right).emissions target).all Emission.isProper = true := by
  rcases op with op | rel
  · cases left <;> cases right <;> rfl
  · cases rel <;> cases left <;> cases right <;> rfl

namespace Step

@[simp] theorem emissions_around (site : Site) (inner : List Step) (es : List Emission) :
    (around site inner es).flatMap emissions = inner.flatMap emissions ++ es := by
  simp [around, emissions]

@[simp] theorem emissions_unlowered (xs ys : List Site) :
    (unlowered xs ys).flatMap emissions = [] := by
  simp [unlowered, List.flatMap_map, emissions]

end Step

namespace Expr

theorem build_steps (scope : Scope) (c : Cursor) (e : Expr) :
    Emission.Build c ((e.steps scope).flatMap Step.emissions) (e.code scope) c := by
  induction e with
  | literal kind text tag span => exact .of_still (fun _ => rfl) (fun _ => rfl) rfl rfl
  | var v => exact .of_still (fun _ => rfl) (fun _ => rfl) rfl rfl
  | binary op left right tag span ihl ihr =>
    rw [steps, Step.emissions_around, List.flatMap_append]
    refine (ihl.append ihr).append (.of_still (fun _ => rfl) (fun _ => rfl) rfl ?_)
    simp [Operator.isProper_arithmeticOr]
  | negate operand tag span ih =>
    rw [steps, Step.emissions_around]
    refine ih.append (.of_still (fun _ => rfl) (fun _ => rfl) rfl ?_)
    simp [Tag.isProper_negationOr]

theorem build_conditionSteps (scope : Scope) (target : Label) (c : Cursor) (e : Expr) :
    Emission.Build c ((e.conditionSteps scope target).flatMap Step.emissions)
      (e.branchCode scope target) c := by
  cases e with
  | binary op left right tag span =>
    have hp := op.isProper_comparisonOr left.tag right.tag target
    rw [conditionSteps, Step.emissions_around, List.flatMap_append]
    refine ((left.build_steps scope c).append (right.build_steps scope c)).append ?_
    cases hj : op.comparisonOr left.tag right.tag with
    | direct b => exact .of_still (fun _ => rfl) (fun _ => rfl) rfl (hj ▸ hp)
    | compared compare b => exact .of_still (fun _ => rfl) (fun _ => rfl) rfl (hj ▸ hp)
  | _ =>
    rw [conditionSteps, Step.emissions_unlowered]
    · exact .nil c
    · intros
      contradiction

end Expr

theorem build_argumentSteps (scope : Scope) (c : Cursor) (index : Nat) (args : List Expr) :
    Emission.Build c ((argumentSteps scope index args).flatMap Step.emissions)
      (argumentsCode scope index args) c := by
  induction args generalizing index with
  | nil => exact .nil c
  | cons arg args ih =>
    rw [argumentSteps, List.flatMap_append, Step.emissions_around, List.flatMap_cons]
    refine .append (.append (.append (.of_still (fun _ => rfl) (fun _ => rfl) rfl rfl)
      (arg.build_steps scope c)) (.of_still (fun _ => rfl) (fun _ => rfl) rfl ?_)) (ih (index + 1))
    cases arg.tag <;> decide

theorem build_printSteps (scope : Scope) (c : Cursor) (format : String) (args : List Expr)
    (span : Span) :
    Emission.Build c ((printSteps scope format args span).flatMap Step.emissions)
      ((Stmt.print format args span).code scope c) c := by
  rw [printSteps, Stmt.code, List.flatMap_cons]
  cases formatText? format with
  | none =>
    rw [Step.emissions_unlowered]
    exact .nil c
  | some text =>
    have hfront : Emission.Build c
        [.instruction .getStatic (some Library.systemOut), .string text, .number args.length,
          .instruction .anewarray (some Library.objectClass)]
        [.instruction .getStatic (some Library.systemOut),
          .instruction .ldc (some s!"\"{text}\""), .instruction .ldc (some (toString args.length)),
          .instruction .anewarray (some Library.objectClass)] c :=
      .of_still (fun _ => rfl) (fun _ => rfl) rfl rfl
    have hback : Emission.Build c [.invoke .invokeVirtual Library.printf, .plain .pop]
        [.instruction .invokeVirtual (some Library.printf), .instruction .pop none] c :=
      .of_still (fun _ => rfl) (fun _ => rfl) rfl (by decide)
    simp only [List.flatMap_append, Step.emissions_around]
    exact (hfront.append (build_argumentSteps scope c 0 args)).append hback

/-- The echo of a line, written once that line is current. -/
theorem Scope.build_echo (scope : Scope) (label : Nat) (n : UInt32) :
    Emission.Build ⟨label, n⟩ (scope.echo n) (scope.echoLines n) ⟨label, n⟩ := by
  have hwritten (a : Assembler) (ha : a.line = n) :
      a.writtenAll (scope.echo n) = scope.echoLines n := by
    subst ha
    unfold echo echoLines
    cases scope.options.sourceComments <;> cases scope.options.lineDirectives <;>
      cases scope.sourceLine? a.line <;> rfl
  have hstill : (∀ a : Assembler, (a.emitAll (scope.echo n)).line = a.line) ∧
      (scope.echo n).count .newLabel = 0 ∧ (scope.echo n).all Emission.isProper = true := by
    unfold echo
    cases scope.options.sourceComments <;> cases scope.options.lineDirectives <;>
      cases scope.sourceLine? n <;> exact ⟨fun _ => rfl, rfl, rfl⟩
  obtain ⟨hline, hlabels, hproper⟩ := hstill
  refine ⟨hwritten, fun a ha => (hline a).trans ha, ?_, List.all_eq_true.mp hproper⟩
  rw [hlabels]
  rfl

theorem Scope.build_annotationEmissions (scope : Scope) (cursor : Cursor) (span : Span) :
    Emission.Build cursor (scope.annotationEmissions cursor span)
      (scope.annotationLines cursor span) (cursor.moveTo span) := by
  unfold annotationEmissions annotationLines Cursor.moveTo
  split
  · have hset : Emission.Build cursor [.setLine span.line] [] { cursor with line := span.line } :=
      ⟨fun _ _ => rfl, fun _ _ => rfl, rfl, List.all_eq_true.mp rfl⟩
    exact hset.append (scope.build_echo cursor.label span.line)
  · exact .nil cursor

mutual

theorem Stmt.build_steps (scope : Scope) (cursor : Cursor) (s : Stmt) :
    Emission.Build cursor ((s.steps scope cursor).flatMap Step.emissions) (s.code scope cursor)
      (s.after cursor) := by
  cases s with
  | assign target value span =>
    rw [Stmt.steps, assignSteps, List.flatMap_cons, List.flatMap_append, Step.emissions_around]
    exact (value.build_steps scope cursor).append (.of_still (fun _ => rfl) (fun _ => rfl) rfl rfl)
  | block body span => exact build_stepsAll scope cursor body
  | ifThen cond body span =>
    simp only [Stmt.steps, List.flatMap_append]
    refine .append (.append (.append (.append ?_
      (cond.build_conditionSteps scope _ (cursor.skip 3))) ?_) (build_stepsAll scope _ body)) ?_ <;>
      exact .of_still (fun _ => rfl) (fun _ => rfl) rfl rfl
  | ifElse cond body alternative span =>
    simp only [Stmt.steps, List.flatMap_append]
    refine .append (.append (.append (.append (.append ?_
      (cond.build_conditionSteps scope _ (cursor.skip 3))) (build_stepsAll scope _ alternative)) ?_)
      (build_stepsAll scope _ body)) ?_ <;>
      exact .of_still (fun _ => rfl) (fun _ => rfl) rfl rfl
  | loop body cond span =>
    simp only [Stmt.steps, List.flatMap_append]
    refine .append (.append ?_ (build_stepsAll scope _ body)) (cond.build_conditionSteps scope _ _)
    exact .of_still (fun _ => rfl) (fun _ => rfl) rfl rfl
  | print format args span => exact build_printSteps scope cursor format args span

theorem build_stepsAll (scope : Scope) (cursor : Cursor) (ss : List Stmt) :
    Emission.Build cursor ((stepsAll scope cursor ss).flatMap Step.emissions)
      (codeAll scope cursor ss) (afterAll cursor ss) := by
  cases ss with
  | nil => exact .nil cursor
  | cons s ss =>
    rw [stepsAll, List.flatMap_cons, List.flatMap_append, codeAll, List.append_assoc]
    exact (scope.build_annotationEmissions cursor s.span).append
      ((s.build_steps scope _).append (build_stepsAll scope _ ss))

end

/-! A tree without defects is lowered to its code. -/

namespace Script

variable {α : Type}

/-- Run where the source line `n` is current, a script writes `ls` and leaves line `m` current. All
its emissions are counted. -/
structure Writes (s : Script α) (n : UInt32) (ls : List Line) (m : UInt32) : Prop where
  written : ∀ a : Assembler, a.line = n → a.writtenAll s.emissions = ls
  line : ∀ a : Assembler, a.line = n → (a.emitAll s.emissions).line = m
  counted : ∀ e ∈ s.emissions, e.isCounted = true

theorem Writes.of_build {s : Script α} {c d : Cursor} {ls : List Line}
    (h : Emission.Build c s.emissions ls d) : s.Writes c.line ls d.line :=
  ⟨h.written, h.line, fun e he => (Bool.and_eq_true_iff.mp (h.proper e he)).1⟩

end Script

theorem Expr.lowerCondition_writes (scope : Scope) (target : Label) (n : UInt32) {e : Expr}
    (h : (e.lowerCondition scope target).result = .ok ()) :
    (e.lowerCondition scope target).Writes n (e.branchCode scope target) n := by
  rw [lowerCondition_eq] at h ⊢
  have hbuild := e.build_conditionSteps scope target ⟨0, n⟩
  rw [← Step.emissions_script scope h] at hbuild
  exact .of_build hbuild

theorem Stmt.lowerBare_writes (scope : Scope) (cursor : Cursor) (s : Stmt) {next : Cursor}
    (h : (s.lowerBare scope cursor).result = .ok next) :
    next = s.after cursor ∧
      (s.lowerBare scope cursor).Writes cursor.line (s.code scope cursor) next.line := by
  rw [lowerBare_eq] at h ⊢
  obtain ⟨hok, rfl⟩ := (Step.result_map_script_iff scope).mp h
  have hbuild := s.build_steps scope cursor
  rw [← Step.emissions_script scope hok, ← Script.emissions_map fun _ => s.after cursor] at hbuild
  exact ⟨rfl, .of_build hbuild⟩

theorem emissions_lowerAll {scope : Scope} {cursor next : Cursor} {ss : List Stmt}
    (h : (lowerAll scope cursor ss).result = .ok next) :
    (lowerAll scope cursor ss).emissions = (stepsAll scope cursor ss).flatMap Step.emissions := by
  rw [lowerAll_eq] at h ⊢
  obtain ⟨hok, -⟩ := (Step.result_map_script_iff scope).mp h
  rw [Script.emissions_map, Step.emissions_script scope hok]

theorem lowerAll_writes (scope : Scope) (cursor : Cursor) (ss : List Stmt) {next : Cursor}
    (h : (lowerAll scope cursor ss).result = .ok next) :
    next = afterAll cursor ss ∧
      (lowerAll scope cursor ss).Writes cursor.line (codeAll scope cursor ss) next.line := by
  obtain ⟨-, rfl⟩ := result_lowerAll_iff.mp h
  have hbuild := build_stepsAll scope cursor ss
  rw [← emissions_lowerAll h] at hbuild
  exact ⟨rfl, .of_build hbuild⟩

end StackLowering
