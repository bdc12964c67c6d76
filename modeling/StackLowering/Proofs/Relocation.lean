import StackLowering.Proofs.Bookkeeping

/-!
Lowering at any place. What lowering adds to a workbench depends on the scope and on the current
line, and on nothing that the workbench holds already: from two workbenches with unrelated listings
it adds the same warnings, the same changes of depth, line and label number, and the same lines,
with labels counted from the number that was next. This is a fact about scripts, so it holds up to
the defect where lowering stops.
-/
namespace StackLowering

open Listing

/-! Moving labels. -/

/-- A label with a number that is greater by `n`. -/
def Label.moved (n : Nat) (l : Label) : Label := ⟨n + l.id⟩

namespace Line

def moved (n : Nat) : Line → Line
  | label l => label (l.moved n)
  | branch op target => branch op (target.moved n)
  | line => line

end Line

namespace Emission

def moved (n : Nat) : Emission → Emission
  | .label l => .label (l.moved n)
  | .branch op target => .branch op (target.moved n)
  | e => e

/-- Whether an emission neither opens nor closes a method. -/
def isInner : Emission → Bool
  | .openMethod _ | .closeMethod _ _ => false
  | _ => true

@[simp] theorem effect_moved (n : Nat) (e : Emission) : (e.moved n).effect = e.effect := by
  cases e <;> rfl

theorem total_map_moved (n : Nat) (es : List Emission) : total (es.map (moved n)) = total es := by
  simp [total, Function.comp_def]

theorem opensMethod_of_isInner {e : Emission} (h : e.isInner = true) : e.opensMethod = false := by
  cases e with
  | openMethod header => contradiction
  | _ => rfl

theorem isInner_of_isCounted {e : Emission} (h : e.isCounted = true) : e.isInner = true := by
  cases e with
  | openMethod header => contradiction
  | closeMethod locals stack => contradiction
  | _ => rfl

@[simp] theorem isInner_moved (n : Nat) (e : Emission) : (e.moved n).isInner = e.isInner := by
  cases e <;> rfl

theorem count_newLabel_map_moved (n : Nat) (es : List Emission) :
    (es.map (moved n)).count .newLabel = es.count .newLabel := by
  induction es with
  | nil => rfl
  | cons e es ih => cases e <;> simp [moved, ih]

end Emission

namespace Command

def moved (n : Nat) : Command → Command
  | emit e => emit (e.moved n)
  | c => c

theorem emission?_moved (n : Nat) (c : Command) :
    (c.moved n).emission? = c.emission?.map (Emission.moved n) := by
  cases c <;> rfl

theorem warning?_moved (n : Nat) (c : Command) : (c.moved n).warning? = c.warning? := by
  cases c <;> rfl

end Command

/-- The cursor with a label number that is greater by `n`. -/
def Cursor.moved (n : Nat) (cursor : Cursor) : Cursor := { cursor with label := n + cursor.label }

theorem Cursor.moveTo_moved (n : Nat) (cursor : Cursor) (span : Span) :
    (cursor.moved n).moveTo span = (cursor.moveTo span).moved n := by
  have hline : (cursor.moved n).line = cursor.line := rfl
  rw [Cursor.moveTo, Cursor.moveTo, hline]
  split <;> rfl

mutual

theorem Stmt.after_moved (n : Nat) (cursor : Cursor) (stmt : Stmt) :
    stmt.after (cursor.moved n) = (stmt.after cursor).moved n := by
  cases stmt with
  | assign target value span => rfl
  | block body span => exact afterAll_moved n cursor body
  | ifThen cond body span => exact afterAll_moved n (cursor.skip 3) body
  | ifElse cond body alternative span =>
    have halt := afterAll_moved n (cursor.skip 3) alternative
    change afterAll (afterAll ((cursor.skip 3).moved n) alternative) body = _
    rw [halt]
    exact afterAll_moved n _ body
  | loop body cond span => exact afterAll_moved n (cursor.skip 1) body
  | print format args span => rfl

theorem afterAll_moved (n : Nat) (cursor : Cursor) (ss : List Stmt) :
    afterAll (cursor.moved n) ss = (afterAll cursor ss).moved n := by
  cases ss with
  | nil => rfl
  | cons stmt ss =>
    rw [afterAll, afterAll, Cursor.moveTo_moved, stmt.after_moved]
    exact afterAll_moved n _ ss

end

/-! What emissions inside a method add. -/

namespace Assembler

variable {a b : Assembler} {es : List Emission}

theorem written_moved {e : Emission} (he : e.isInner = true) (h : a.line = b.line) (n : Nat) :
    a.written (e.moved n) = (b.written e).map (Line.moved n) := by
  cases e with
  | openMethod header => contradiction
  | closeMethod locals stack => contradiction
  | lineDirective =>
    change [Line.directive (lineDirectiveText a.line)] = [.directive (lineDirectiveText b.line)]
    rw [h]
  | _ => rfl

theorem line_emit_moved (h : a.line = b.line) (e : Emission) (n : Nat) :
    (a.emit (e.moved n)).line = (b.emit e).line := by
  cases e with
  | setLine m => rfl
  | _ => exact h

/-- Moved emissions write moved lines, whatever was written before, and lead to the same line. -/
theorem writtenAll_moved (he : ∀ e ∈ es, e.isInner = true) (h : a.line = b.line) (n : Nat) :
    a.writtenAll (es.map (Emission.moved n)) = (b.writtenAll es).map (Line.moved n) ∧
      (a.emitAll (es.map (Emission.moved n))).line = (b.emitAll es).line := by
  induction es generalizing a b with
  | nil => exact ⟨rfl, h⟩
  | cons e es ih =>
    have hline := line_emit_moved h e n
    obtain ⟨hlines, hlast⟩ := ih (fun f hf => he f (List.mem_cons_of_mem e hf)) hline
    refine ⟨?_, hlast⟩
    rw [List.map_cons, writtenAll_cons, writtenAll_cons, List.map_append, hlines,
      written_moved (he e List.mem_cons_self) h]

theorem depth_emitAll (he : ∀ e ∈ es, e.isInner = true) :
    (a.emitAll es).depth = a.depth + Emission.total es := by
  induction es generalizing a with
  | nil => exact (Int.add_zero a.depth).symm
  | cons e es ih =>
    have ho := Emission.opensMethod_of_isInner (he e List.mem_cons_self)
    rw [emitAll_cons, ih fun f hf => he f (List.mem_cons_of_mem e hf), depth_emit, ho]
    simp [Emission.total, Int.add_assoc]

end Assembler

/-! Scripts that differ by a move of labels. -/

namespace Script

variable {α β : Type}

/-- The script `t` is `s` with all labels moved by `n`, up to the same end, and stays inside of a
method. Where `s` gives a value, `t` gives the image of it. -/
structure Relocates (n : Nat) (f : α → β) (s : Script α) (t : Script β) : Prop where
  commands : t.commands = s.commands.map (Command.moved n)
  result : t.result = s.result.map f
  inner : ∀ e ∈ s.emissions, e.isInner = true

namespace Relocates

variable {n : Nat}

theorem emissions {f : α → β} {s : Script α} {t : Script β} (h : s.Relocates n f t) :
    t.emissions = s.emissions.map (Emission.moved n) := by
  rw [Script.emissions, Script.emissions, h.commands, List.filterMap_map, List.map_filterMap]
  exact List.filterMap_congr fun c _ => c.emission?_moved n

theorem warnings {f : α → β} {s : Script α} {t : Script β} (h : s.Relocates n f t) :
    t.warnings = s.warnings := by
  rw [Script.warnings, Script.warnings, h.commands, List.filterMap_map]
  exact List.filterMap_congr fun c _ => c.warning?_moved n

end Relocates

end Script

/-! Lowering with two scopes that know the same. -/

namespace Scope

/-- Scopes of one class with the same source text and options, in which every name is declared with
the same tag. The order of the declarations does not matter. -/
structure Agrees (s t : Scope) : Prop where
  className : t.className = s.className
  source : t.source = s.source
  options : t.options = s.options
  declared : ∀ name, t.declared? name = s.declared? name

namespace Agrees

variable {s t : Scope}

theorem refl (s : Scope) : s.Agrees s := ⟨rfl, rfl, rfl, fun _ => rfl⟩

theorem field (h : s.Agrees t) (name descriptor : String) :
    t.field name descriptor = s.field name descriptor := by
  rw [Scope.field, Scope.field, h.className]

theorem fieldFor (h : s.Agrees t) (v : Variable) : t.fieldFor v = s.fieldFor v := by
  rw [Scope.fieldFor, Scope.fieldFor, storageTag, storageTag, h.declared, h.field]

theorem echo (h : s.Agrees t) (n : UInt32) : t.echo n = s.echo n := by
  simp only [Scope.echo, sourceLine?, h.source, h.options]

theorem warnings (h : s.Agrees t) (site : Site) : site.warnings t = site.warnings s := by
  have hreference (v : Variable) : t.referenceWarnings v = s.referenceWarnings v := by
    simp only [referenceWarnings, nameWarnings, storageTag, h.declared]
  cases site with
  | value e =>
    cases e with
    | var v => exact hreference v
    | _ => rfl
  | condition e => cases e <;> rfl
  | assignment target e span =>
    have hstorage : t.storageTag target = s.storageTag target := by
      rw [storageTag, storageTag, h.declared]
    rw [Site.warnings, Site.warnings, hreference, hstorage]
  | _ => rfl

end Agrees

end Scope

namespace Step

/-- A step with the labels that it emits moved. -/
def moved (n : Nat) : Step → Step
  | emit es => emit (es.map (Emission.moved n))
  | step => step

theorem moved_around (n : Nat) (site : Site) (inner : List Step) (es : List Emission) :
    (around site inner es).map (moved n) =
      around site (inner.map (moved n)) (es.map (Emission.moved n)) := by
  simp [around, moved]

theorem moved_unlowered (n : Nat) (xs ys : List Site) :
    (unlowered xs ys).map (moved n) = unlowered xs ys := by
  simp [unlowered, Function.comp_def, moved]

/-- The script of moved steps is the moved script, up to the same end. -/
theorem script_moved {s t : Scope} (h : s.Agrees t) (n : Nat) (xs : List Step) :
    script t (xs.map (moved n)) =
      ⟨(script s xs).commands.map (Command.moved n), (script s xs).result⟩ := by
  induction xs with
  | nil => rfl
  | cons x xs ih =>
    have hcommands : (x.moved n).commands t = (x.commands s).map (Command.moved n) := by
      cases x <;> simp [moved, commands, Command.moved, h.warnings]
    have hdefect : (x.moved n).defect? = x.defect? := by cases x <;> rfl
    rw [List.map_cons, script, script, hdefect, hcommands, ih]
    cases x.defect? with
    | some d => rfl
    | none =>
      change Script.mk (_ ++ _) _ = Script.mk (List.map _ (_ ++ _)) _
      rw [List.map_append]
      rfl

end Step

section Lowering

variable {s t : Scope} (h : s.Agrees t) (n : Nat)

include h

namespace Expr

theorem steps_moved (e : Expr) : e.steps t = (e.steps s).map (Step.moved n) := by
  induction e with
  | literal kind text tag span => rfl
  | var v => simp [steps, Step.moved_around, h.fieldFor]; rfl
  | binary op left right tag span ihl ihr =>
    simp [steps, Step.moved_around, ihl, ihr]; rfl
  | negate operand tag span ih => simp [steps, Step.moved_around, ih]; rfl

theorem conditionSteps_moved (target : Label) (e : Expr) :
    e.conditionSteps t (target.moved n) = (e.conditionSteps s target).map (Step.moved n) := by
  cases e with
  | binary op left right tag span =>
    have hjump : (op.comparisonOr left.tag right.tag).emissions (target.moved n) =
        ((op.comparisonOr left.tag right.tag).emissions target).map (Emission.moved n) := by
      cases op.comparisonOr left.tag right.tag <;> rfl
    simp [conditionSteps, Step.moved_around, left.steps_moved h n, right.steps_moved h n, hjump]
  | _ => exact (Step.moved_unlowered n _ _).symm

end Expr

theorem argumentSteps_moved (index : Nat) (args : List Expr) :
    argumentSteps t index args = (argumentSteps s index args).map (Step.moved n) := by
  induction args generalizing index with
  | nil => rfl
  | cons arg args ih =>
    rw [argumentSteps, argumentSteps, List.map_append, Step.moved_around, List.map_cons,
      arg.steps_moved h n, ih]
    rfl

theorem printSteps_moved (format : String) (args : List Expr) (span : Span) :
    printSteps t format args span = (printSteps s format args span).map (Step.moved n) := by
  rw [printSteps, printSteps, List.map_cons]
  cases formatText? format with
  | none => exact congrArg _ (Step.moved_unlowered n _ _).symm
  | some text =>
    simp only [List.map_append, Step.moved_around, argumentSteps_moved h n]
    rfl

theorem assignSteps_moved (target : Variable) (value : Expr) (span : Span) :
    assignSteps t target value span = (assignSteps s target value span).map (Step.moved n) := by
  rw [assignSteps, assignSteps, List.map_cons, List.map_append, Step.moved_around,
    value.steps_moved h n, h.fieldFor]
  rfl

theorem Scope.annotationEmissions_moved (cursor : Cursor) (span : Span) :
    t.annotationEmissions (cursor.moved n) span =
      (s.annotationEmissions cursor span).map (Emission.moved n) := by
  have hecho : (s.echo span.line).map (Emission.moved n) = s.echo span.line := by
    unfold echo
    cases s.options.sourceComments <;> cases s.options.lineDirectives <;>
      cases s.sourceLine? span.line <;> rfl
  have hline : (cursor.moved n).line = cursor.line := rfl
  rw [annotationEmissions, annotationEmissions, hline, h.echo]
  split
  · rw [List.map_cons, hecho]
    rfl
  · rfl

mutual

theorem Stmt.steps_moved (cursor : Cursor) (stmt : Stmt) :
    stmt.steps t (cursor.moved n) = (stmt.steps s cursor).map (Step.moved n) := by
  cases stmt with
  | assign target value span => exact assignSteps_moved h n target value span
  | block body span => exact stepsAll_moved cursor body
  | ifThen cond body span =>
    have hcond := cond.conditionSteps_moved h n ⟨cursor.label + 1⟩
    have hbody := stepsAll_moved (cursor.skip 3) body
    simp only [Stmt.steps, List.map_append, ← hcond, ← hbody]
    rfl
  | ifElse cond body alternative span =>
    have hcond := cond.conditionSteps_moved h n ⟨cursor.label + 1⟩
    have halt := stepsAll_moved (cursor.skip 3) alternative
    have hbody := stepsAll_moved (afterAll (cursor.skip 3) alternative) body
    rw [← afterAll_moved] at hbody
    simp only [Stmt.steps, List.map_append, ← hcond, ← halt, ← hbody]
    rfl
  | loop body cond span =>
    have hcond := cond.conditionSteps_moved h n ⟨cursor.label⟩
    have hbody := stepsAll_moved (cursor.skip 1) body
    simp only [Stmt.steps, List.map_append, ← hcond, ← hbody]
    rfl
  | print format args span => exact printSteps_moved h n format args span

theorem stepsAll_moved (cursor : Cursor) (ss : List Stmt) :
    stepsAll t (cursor.moved n) ss = (stepsAll s cursor ss).map (Step.moved n) := by
  cases ss with
  | nil => rfl
  | cons stmt ss =>
    rw [stepsAll, stepsAll, List.map_cons, List.map_append, Cursor.moveTo_moved, Stmt.after_moved,
      stmt.steps_moved, stepsAll_moved _ ss, Scope.annotationEmissions_moved h n]
    rfl

end

theorem lowerAll_relocates (cursor : Cursor) (ss : List Stmt) :
    (lowerAll s cursor ss).Relocates n (Cursor.moved n) (lowerAll t (cursor.moved n) ss) := by
  have hbuild := build_stepsAll s cursor ss
  rw [lowerAll_eq, lowerAll_eq, stepsAll_moved h n, Step.script_moved h n]
  refine ⟨?_, ?_, fun e he => ?_⟩
  · rw [Script.commands_map, Script.commands_map]
  · rw [Script.result_map, Script.result_map, afterAll_moved]
    cases (Step.script s (stepsAll s cursor ss)).result <;> rfl
  · rw [Script.emissions_map] at he
    have hmem := (Step.prefix_emissions_script s _).subset he
    exact Emission.isInner_of_isCounted (Bool.and_eq_true_iff.mp (hbuild.proper e hmem)).1

end Lowering

/-! What a workbench gains. -/

/-- What lowering adds to a workbench. Labels are counted from zero. -/
structure Growth where
  lines : List Line
  warnings : List Warning
  /-- The change of the depth. -/
  depth : Int
  /-- How many labels are handed out. -/
  labels : Nat
  /-- The line that is current in the end. -/
  line : UInt32

/-- What a script adds where a line is current. -/
def Script.growth {α : Type} (s : Script α) (line : UInt32) : Growth where
  lines := Assembler.writtenAll { line } s.emissions
  warnings := s.warnings
  depth := Emission.total s.emissions
  labels := s.emissions.count .newLabel
  line := (Assembler.emitAll { line } s.emissions).line

namespace Workbench

/-- The workbench `v` holds all that `w` holds and what was added to it, with labels moved to those
that were next. -/
structure Grows (w : Workbench) (g : Growth) (v : Workbench) : Prop where
  listing : v.assembler.listing =
    w.assembler.listing ++ g.lines.map (Line.moved w.assembler.labels.next)
  warnings : v.warnings.toList = w.warnings.toList ++ g.warnings
  depth : v.assembler.depth = w.assembler.depth + g.depth
  labels : v.assembler.labels.next = w.assembler.labels.next + g.labels
  line : v.assembler.line = g.line

/-- No label with the next number, or a later one, has been placed. -/
def Ahead (w : Workbench) : Prop :=
  ∀ l, w.assembler.labels.isPlaced l = true → l.id < w.assembler.labels.next

/-- Lowered statements run without a fault where the labels to come are not placed. -/
theorem run_lowerAll {w : Workbench} (hw : w.Ahead) (scope : Scope) (ss : List Stmt) :
    (w.run (lowerAll scope w.assembler.cursor ss).commands).2 = none := by
  have hplaces := lowerAll_places scope w.assembler.cursor ss
  have hcount (l : Label) := count_definedLabels_codeAll scope w.assembler.cursor ss l
  apply run_eq_none hplaces.sound
  · apply hplaces.start.sublist.nodup
    apply List.nodup_iff_count.mpr
    intro l
    rw [hcount, Label.countIn]
    split <;> omega
  · intro l hl hplaced
    have hmem := hplaces.start.subset hl
    have hpos := List.count_pos_iff.mpr hmem
    have hlt := hw l ((LabelSupply.isPlaced_iff _ l).mpr hplaced)
    rw [hcount, Label.countIn] at hpos
    split at hpos
    · have hle : w.assembler.labels.next ≤ l.id := by tauto
      omega
    · contradiction

/-- A relocated script adds what the script itself would add, with labels moved. -/
theorem grows_of_relocates {α β : Type} {w v : Workbench} {f : α → β} {s : Script α}
    {t : Script β} (h : s.Relocates w.assembler.labels.next f t)
    (hrun : w.run t.commands = (v, none)) : w.Grows (s.growth w.assembler.line) v := by
  have hnone : (w.run t.commands).2 = none := by rw [hrun]
  have hassembler := assembler_run hnone
  have hwarnings := warnings_run hnone
  rw [hrun] at hassembler hwarnings
  change v.assembler = w.assembler.emitAll t.emissions at hassembler
  change v.warnings.toList = w.warnings.toList ++ t.warnings at hwarnings
  rw [h.emissions] at hassembler
  have hinner : ∀ e ∈ s.emissions.map (Emission.moved w.assembler.labels.next),
      e.isInner = true := by
    intro e he
    obtain ⟨e, hm, rfl⟩ := List.mem_map.mp he
    rw [Emission.isInner_moved]
    exact h.inner e hm
  -- The lines are compared with those on an empty workbench where the same line is current.
  obtain ⟨hlines, hline⟩ := Assembler.writtenAll_moved (a := w.assembler)
    (b := { line := w.assembler.line }) h.inner rfl w.assembler.labels.next
  refine ⟨?_, ?_, ?_, ?_, ?_⟩
  · rw [hassembler, Assembler.listing_emitAll, hlines]
    rfl
  · rw [hwarnings, h.warnings]
    rfl
  · rw [hassembler, Assembler.depth_emitAll hinner, Emission.total_map_moved]
    rfl
  · rw [hassembler, Assembler.next_emitAll, Emission.count_newLabel_map_moved]
    rfl
  · rw [hassembler, hline]
    rfl

end Workbench

/-- What lowering works with: a scope that it reads, and a workbench that it works on. -/
structure Job where
  scope : Scope
  bench : Workbench

namespace Job

/-- Lower statements where the job stands. -/
def lowerAll (j : Job) (ss : List Stmt) : Job × Except (Stop Defect) Unit :=
  let (bench, result) :=
    j.bench.play (StackLowering.lowerAll j.scope j.bench.assembler.cursor ss)
  ({ j with bench }, result.map fun _ => ())

/-- What a job ends with and what it adds are those of a script that only the scope and the current
line decide about. -/
theorem lowerAll_eq {s : Scope} {j : Job} (hs : s.Agrees j.scope) (hj : j.bench.Ahead)
    (ss : List Stmt) :
    (j.lowerAll ss).2 = ((StackLowering.lowerAll s ⟨0, j.bench.assembler.line⟩ ss).result.mapError
        Stop.error).map (fun _ => ()) ∧
      j.bench.Grows
        ((StackLowering.lowerAll s ⟨0, j.bench.assembler.line⟩ ss).growth j.bench.assembler.line)
        (j.lowerAll ss).1.bench := by
  have hrelocates : (StackLowering.lowerAll s ⟨0, j.bench.assembler.line⟩ ss).Relocates
      j.bench.assembler.labels.next (Cursor.moved j.bench.assembler.labels.next)
      (StackLowering.lowerAll j.scope j.bench.assembler.cursor ss) :=
    lowerAll_relocates hs j.bench.assembler.labels.next ⟨0, j.bench.assembler.line⟩ ss
  have hfault := Workbench.run_lowerAll hj j.scope ss
  rcases hrun : j.bench.run (StackLowering.lowerAll j.scope j.bench.assembler.cursor ss).commands
    with ⟨v, fault⟩
  rw [hrun] at hfault
  subst hfault
  have hplay : j.lowerAll ss = ({ j with bench := v },
      ((StackLowering.lowerAll j.scope j.bench.assembler.cursor ss).result.mapError
        Stop.error).map fun _ => ()) := by
    rw [lowerAll, Workbench.play, hrun]
  rw [hplay]
  refine ⟨?_, Workbench.grows_of_relocates hrelocates hrun⟩
  rw [hrelocates.result]
  cases (StackLowering.lowerAll s ⟨0, j.bench.assembler.line⟩ ss).result <;> rfl

/-- Lowering statements in two jobs whose scopes agree and whose workbenches stand on one line, with
no label to come placed on either. Both come to their end, or both stop at the same defect. In both
the listing and the warnings are kept and the scope is left as it is; and what is added to the two
is one and the same, once labels are counted from the number that was next. -/
theorem lowering_relocates {j k : Job} (hscope : j.scope.Agrees k.scope)
    (hline : j.bench.assembler.line = k.bench.assembler.line) (hj : j.bench.Ahead)
    (hk : k.bench.Ahead) (ss : List Stmt) :
    (((j.lowerAll ss).2 = .ok () ∧ (k.lowerAll ss).2 = .ok ()) ∨
        ∃ d, (j.lowerAll ss).2 = .error (.error d) ∧ (k.lowerAll ss).2 = .error (.error d)) ∧
      ((j.lowerAll ss).1.scope = j.scope ∧ (k.lowerAll ss).1.scope = k.scope) ∧
      ∃ g : Growth, j.bench.Grows g (j.lowerAll ss).1.bench ∧
        k.bench.Grows g (k.lowerAll ss).1.bench := by
  obtain ⟨hrj, hgj⟩ := lowerAll_eq (.refl j.scope) hj ss
  obtain ⟨hrk, hgk⟩ := lowerAll_eq hscope hk ss
  rw [← hline] at hrk hgk
  refine ⟨?_, ⟨rfl, rfl⟩, _, hgj, hgk⟩
  rw [hrj, hrk]
  cases (StackLowering.lowerAll j.scope ⟨0, j.bench.assembler.line⟩ ss).result with
  | ok c => exact .inl ⟨rfl, rfl⟩
  | error d => exact .inr ⟨d, rfl, rfl⟩

/-- A job without a history. -/
def fresh : Job where
  scope :=
    { className := "Tilt", source := none, options := { lineDirectives := true },
      symbols := [("x", .real), ("n", .integer)] }
  bench := {}

/-- A job inside of a method, after labels, a jump, an operand and a warning. -/
def worn : Job where
  scope :=
    { className := "Tilt", source := none, options := { lineDirectives := true },
      symbols := [("n", .integer), ("x", .real)] }
  bench :=
    { assembler := Assembler.emitAll {} [.openMethod "static f()V", .newLabel, .newLabel,
        .newLabel, .label ⟨1⟩, .jump ⟨2⟩, .constant "5"],
      warnings := #[.unknownDescriptor "y" ⟨1, 5, 1⟩] }

/-- Statements that stop at the format in a conditional, behind the code of the alternative. -/
def stumble : List Stmt :=
  [.ifElse (.binary (.relation .lt) (.var ⟨"x", .real, ⟨3, 6, 1⟩⟩)
      (.literal .float "0.0" .real ⟨3, 10, 3⟩) .unknown ⟨3, 6, 7⟩)
    [.print "%d" [.var ⟨"n", .integer, ⟨4, 17, 1⟩⟩] ⟨4, 5, 14⟩]
    [.assign ⟨"n", .integer, ⟨6, 5, 1⟩⟩ (.var ⟨"x", .real, ⟨6, 10, 1⟩⟩) ⟨6, 5, 6⟩] ⟨3, 3, 2⟩]

theorem stumble_relocates :
    ∃ (d : Defect) (g : Growth), (fresh.lowerAll stumble).2 = .error (.error d) ∧
      (worn.lowerAll stumble).2 = .error (.error d) ∧
      fresh.bench.Grows g (fresh.lowerAll stumble).1.bench ∧
      worn.bench.Grows g (worn.lowerAll stumble).1.bench ∧ g.labels = 3 := by
  have hscope : fresh.scope.Agrees worn.scope := by
    refine ⟨rfl, rfl, rfl, ?_⟩
    intro name
    change List.lookup name [("n", Tag.integer), ("x", .real)] =
      List.lookup name [("x", Tag.real), ("n", .integer)]
    by_cases hx : name = "x"
    · subst hx
      rfl
    · have hskip : (name == "x") = false := beq_eq_false_iff_ne.mpr hx
      simp only [List.lookup_cons, List.lookup_nil, hskip]
  have hfresh : fresh.bench.Ahead := fun l hl => by contradiction
  have hworn : worn.bench.Ahead := by
    intro l hl
    have hmem : l ∈ [(⟨1⟩ : Label)] := (LabelSupply.isPlaced_iff _ l).mp hl
    rw [List.mem_singleton.mp hmem]
    decide
  obtain ⟨hends, -, g, hg, hw⟩ := lowering_relocates hscope rfl hfresh hworn stumble
  have hlabels : 3 = 0 + g.labels := hg.labels
  rcases hends with ⟨hok, -⟩ | ⟨d, hd, he⟩
  · contradiction
  · exact ⟨d, g, hd, he, hg, hw, by omega⟩

end Job

end StackLowering
