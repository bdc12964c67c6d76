import StackLowering.Proofs.Sites

/-!
Lowering step by step. Lowering comes to a site, where it stops if the site is a defect; it is done
with a site and gives its warnings; it emits; and it makes a note. The steps of a tree are listed
here once, and the script of a tree is the script of its steps. What a script writes, where it stops
and what it warns about is read off the steps and not off the functions that lower.
-/
namespace StackLowering

namespace Script

variable {α β : Type}

/-- The defect at which a script stops. -/
def defect? (s : Script α) : Option Defect :=
  match s.result with
  | .ok _ => none
  | .error d => some d

theorem defect?_eq_none_iff {s : Script α} : s.defect? = none ↔ ∃ a, s.result = .ok a := by
  unfold defect?
  cases s.result <;> simp

@[simp] theorem defect?_map (f : α → β) (s : Script α) : (f <$> s).defect? = s.defect? := by
  unfold defect?
  rw [result_map]
  cases s.result <;> rfl

@[simp] theorem emissions_give (cs : List Command) :
    (give cs).emissions = cs.filterMap Command.emission? := rfl

@[simp] theorem warnings_give (cs : List Command) :
    (give cs).warnings = cs.filterMap Command.warning? := rfl

@[simp] theorem give_bind_give (cs ds : List Command) :
    (give cs >>= fun _ => give ds) = give (cs ++ ds) := rfl

@[simp] theorem emissions_map (f : α → β) (s : Script α) : (f <$> s).emissions = s.emissions := by
  rw [emissions, commands_map, emissions]

@[simp] theorem warnings_map (f : α → β) (s : Script α) : (f <$> s).warnings = s.warnings := by
  rw [warnings, commands_map, warnings]

/-- A warning that may be left out, before work that is done in any case. -/
theorem ite_warn_bind (c : Prop) [Decidable c] (w : Warning) (s : Script α) :
    (if c then warn w >>= fun _ => s else s) =
      give ((if c then [w] else []).map .warn) >>= fun _ => s := by
  split
  · rfl
  · exact (pure_bind () fun _ => s).symm

end Script

/-- One step of lowering. -/
inductive Step where
  /-- Come to a site. -/
  | enter (site : Site)
  /-- Be done with a site. -/
  | leave (site : Site)
  | emit (es : List Emission)
  | note (text : String)

namespace Step

/-- The defect at which a step stops. -/
def defect? : Step → Option Defect
  | enter site => site.defect?
  | _ => none

def commands (scope : Scope) : Step → List Command
  | enter _ => []
  | leave site => (site.warnings scope).map .warn
  | emit es => es.map .emit
  | note text => [.note text]

def emissions : Step → List Emission
  | emit es => es
  | _ => []

/-- The site that a step comes to. -/
def sites : Step → List Site
  | enter site => [site]
  | _ => []

/-- The site that a step is done with. -/
def exits : Step → List Site
  | leave site => [site]
  | _ => []

/-- The script of steps: their commands up to the first defect. -/
def script (scope : Scope) : List Step → Script Unit
  | [] => return ()
  | step :: steps =>
    match step.defect? with
    | some d => Script.fail d
    | none => do
      Script.give (step.commands scope)
      script scope steps

variable (scope : Scope)

@[simp] theorem script_nil : script scope [] = pure () := rfl

theorem script_cons (step : Step) (steps : List Step) :
    script scope (step :: steps) = script scope [step] >>= fun _ => script scope steps := by
  simp only [script]
  cases step.defect? with
  | some d => rfl
  | none => simp

theorem script_append (xs ys : List Step) :
    script scope (xs ++ ys) = script scope xs >>= fun _ => script scope ys := by
  induction xs with
  | nil => simp
  | cons x xs ih => rw [List.cons_append, script_cons, ih, script_cons scope x xs, bind_assoc]

theorem script_enter_of_none {site : Site} (h : site.defect? = none) (steps : List Step) :
    script scope (enter site :: steps) = script scope steps := by
  rw [script, defect?, h]
  exact pure_bind () fun _ => script scope steps

theorem script_enter_of_some {site : Site} {d : Defect} (h : site.defect? = some d)
    (steps : List Step) : script scope (enter site :: steps) = Script.fail d := by
  rw [script, defect?, h]

theorem script_leave (site : Site) (steps : List Step) :
    script scope (leave site :: steps) =
      Script.give ((site.warnings scope).map .warn) >>= fun _ => script scope steps := rfl

theorem script_emit (es : List Emission) (steps : List Step) :
    script scope (emit es :: steps) = Script.emitAll es >>= fun _ => script scope steps := rfl

theorem script_note (text : String) (steps : List Step) :
    script scope (note text :: steps) = Script.note text >>= fun _ => script scope steps := rfl

/-! What is read off steps. -/

/-- Steps stop at the first site that is a defect. -/
theorem defect?_script (xs : List Step) :
    (script scope xs).defect? = (xs.flatMap sites).findSome? Site.defect? := by
  induction xs with
  | nil => rfl
  | cons x xs ih =>
    cases x with
    | enter site =>
      rw [script, defect?, List.flatMap_cons, sites, List.singleton_append, List.findSome?_cons]
      cases site.defect? with
      | some d => rfl
      | none => exact ih
    | _ => exact ih

/-- Steps without a defect give all their commands. -/
theorem script_eq_give {xs : List Step} (h : (script scope xs).result = .ok ()) :
    script scope xs = Script.give (xs.flatMap (commands scope)) := by
  induction xs with
  | nil => rfl
  | cons x xs ih =>
    rw [script] at h ⊢
    cases hx : x.defect? with
    | some d => simp [hx] at h
    | none =>
      simp only [hx] at h ⊢
      rw [ih h]
      rfl

theorem prefix_commands_script (xs : List Step) :
    (script scope xs).commands <+: xs.flatMap (commands scope) := by
  induction xs with
  | nil => exact List.prefix_rfl
  | cons x xs ih =>
    rw [script, List.flatMap_cons]
    cases x.defect? with
    | some d => exact List.nil_prefix
    | none => exact (List.prefix_append_right_inj _).mpr ih

theorem emissions_commands (xs : List Step) :
    (xs.flatMap (commands scope)).filterMap Command.emission? = xs.flatMap emissions := by
  induction xs with
  | nil => rfl
  | cons x xs ih =>
    rw [List.flatMap_cons, List.filterMap_append, ih, List.flatMap_cons]
    cases x <;> simp [commands, emissions, List.filterMap_map, Function.comp_def, Command.emission?]

theorem warnings_commands (xs : List Step) :
    (xs.flatMap (commands scope)).filterMap Command.warning? =
      (xs.flatMap exits).flatMap (Site.warnings scope) := by
  induction xs with
  | nil => rfl
  | cons x xs ih =>
    rw [List.flatMap_cons, List.filterMap_append, ih, List.flatMap_cons, List.flatMap_append]
    cases x <;> simp [commands, exits, List.filterMap_map, Function.comp_def, Command.warning?]

theorem prefix_emissions_script (xs : List Step) :
    (script scope xs).emissions <+: xs.flatMap emissions := by
  rw [← emissions_commands scope]
  exact (prefix_commands_script scope xs).filterMap _

theorem result_script_iff {xs : List Step} :
    (script scope xs).result = .ok () ↔ ∀ site ∈ xs.flatMap sites, site.defect? = none := by
  have hok : (script scope xs).result = .ok () ↔ (script scope xs).defect? = none := by
    rw [Script.defect?_eq_none_iff]
    exact ⟨fun h => ⟨(), h⟩, fun ⟨_, h⟩ => h⟩
  rw [hok, defect?_script, List.findSome?_eq_none_iff]

theorem result_map_script_iff {α : Type} {xs : List Step} {a b : α} :
    ((fun _ => a) <$> script scope xs).result = .ok b ↔
      (script scope xs).result = .ok () ∧ b = a := by
  rw [Script.result_map]
  cases (script scope xs).result <;> simp [Except.map, eq_comm]

theorem emissions_script {xs : List Step} (h : (script scope xs).result = .ok ()) :
    (script scope xs).emissions = xs.flatMap emissions := by
  rw [script_eq_give scope h, Script.emissions_give, emissions_commands]

theorem warnings_script {xs : List Step} (h : (script scope xs).result = .ok ()) :
    (script scope xs).warnings = (xs.flatMap exits).flatMap (Site.warnings scope) := by
  rw [script_eq_give scope h, Script.warnings_give, warnings_commands]

/-- A site with the steps inside of it, and what is emitted when lowering is done with it. -/
def around (site : Site) (inner : List Step) (es : List Emission) : List Step :=
  enter site :: inner ++ [leave site, emit es]

/-- Sites that nothing is emitted for, because lowering stops at the first of them. -/
def unlowered (sites exits : List Site) : List Step := sites.map enter ++ exits.map leave

theorem script_around {site : Site} (h : site.defect? = none) (inner : List Step)
    (es : List Emission) : script scope (around site inner es) = (do
      script scope inner
      Script.give ((site.warnings scope).map .warn)
      Script.emitAll es) := by
  rw [around, List.cons_append, script_enter_of_none scope h, script_append, script_leave,
    script_emit]
  simp

end Step

/-! The steps of expressions. -/

namespace Expr

/-- The steps of a value. -/
def steps (scope : Scope) : Expr → List Step
  | literal kind text tag span =>
    Step.around (.value (literal kind text tag span)) [] [.constant text]
  | var v => Step.around (.value (var v)) [] [.load (scope.fieldFor v)]
  | binary op left right tag span =>
    Step.around (.value (binary op left right tag span)) (left.steps scope ++ right.steps scope)
      [.plain (op.arithmeticOr left.tag right.tag)]
  | negate operand tag span =>
    Step.around (.value (negate operand tag span)) (operand.steps scope)
      [.plain operand.tag.negationOr]

/-- The steps of a condition. -/
def conditionSteps (scope : Scope) (target : Label) : Expr → List Step
  | binary op left right tag span =>
    Step.around (.condition (binary op left right tag span))
      (left.steps scope ++ right.steps scope)
      ((op.comparisonOr left.tag right.tag).emissions target)
  | e => Step.unlowered e.conditionSites e.conditionExits

end Expr

/-- The steps of print arguments from an index on. -/
def argumentSteps (scope : Scope) : Nat → List Expr → List Step
  | _, [] => []
  | index, arg :: args =>
    Step.around (.argument index arg) (.emit [.plain .dup, .number index] :: arg.steps scope)
        [.invoke .invokeStatic (Library.boxing arg.tag), .plain .aastore] ++
      argumentSteps scope (index + 1) args

def printSteps (scope : Scope) (format : String) (args : List Expr) (span : Span) : List Step :=
  .note s!"print at {span.text} with {args.length} argument(s)" ::
    match formatText? format with
    | none =>
      Step.unlowered (.format format span :: argumentSites 0 args)
        (.format format span :: argumentExits 0 args)
    | some text =>
      Step.around (.format format span) []
          [.instruction .getStatic (some Library.systemOut), .string text, .number args.length,
            .instruction .anewarray (some Library.objectClass)] ++
        argumentSteps scope 0 args ++
        [.emit [.invoke .invokeVirtual Library.printf, .plain .pop]]

def assignSteps (scope : Scope) (target : Variable) (value : Expr) (span : Span) : List Step :=
  .note ("assignment to '" ++ target.name ++ "' at " ++ span.text) ::
    (value.steps scope ++
      Step.around (.assignment target value span) [] [.store (scope.fieldFor target)])

/-! The steps of statements. -/

/-- The cursor at a statement with this span. -/
def Cursor.moveTo (cursor : Cursor) (span : Span) : Cursor :=
  if span.known ∧ span.line ≠ cursor.line then { cursor with line := span.line } else cursor

@[simp] theorem Cursor.label_moveTo (cursor : Cursor) (span : Span) :
    (cursor.moveTo span).label = cursor.label := by unfold Cursor.moveTo; split <;> rfl

/-- The cursor after some labels were handed out. -/
def Cursor.skip (cursor : Cursor) (n : Nat) : Cursor := { cursor with label := cursor.label + n }

@[simp] theorem Cursor.label_skip (cursor : Cursor) (n : Nat) :
    (cursor.skip n).label = cursor.label + n := rfl

mutual

/-- The cursor after a statement. -/
def Stmt.after (cursor : Cursor) : Stmt → Cursor
  | .assign _ _ _ => cursor
  | .block body _ => afterAll cursor body
  | .ifThen _ body _ => afterAll (cursor.skip 3) body
  | .ifElse _ body alternative _ =>
    afterAll (afterAll (cursor.skip 3) alternative) body
  | .loop body _ _ => afterAll (cursor.skip 1) body
  | .print _ _ _ => cursor

/-- The cursor after statements. -/
def afterAll (cursor : Cursor) : List Stmt → Cursor
  | [] => cursor
  | s :: ss => afterAll (s.after (cursor.moveTo s.span)) ss

end

/-- What is emitted before a statement: the echo of its line, if the statement moves to a new
one. -/
def Scope.annotationEmissions (scope : Scope) (cursor : Cursor) (span : Span) : List Emission :=
  if span.known ∧ span.line ≠ cursor.line then .setLine span.line :: scope.echo span.line else []

mutual

/-- The steps of a statement without the echo of its own line. -/
def Stmt.steps (scope : Scope) (cursor : Cursor) : Stmt → List Step
  | .assign target value span => assignSteps scope target value span
  | .block body _ => stepsAll scope cursor body
  | .ifThen cond body span =>
    [.note s!"if at {span.text} (no else)",
        .emit [.newLabel, .newLabel, .newLabel, .label ⟨cursor.label⟩]] ++
      cond.conditionSteps scope ⟨cursor.label + 1⟩ ++
      [.emit [.jump ⟨cursor.label + 2⟩, .label ⟨cursor.label + 1⟩]] ++
      stepsAll scope (cursor.skip 3) body ++
      [.emit [.label ⟨cursor.label + 2⟩]]
  | .ifElse cond body alternative span =>
    [.note s!"if at {span.text} (with else)",
        .emit [.newLabel, .newLabel, .newLabel, .label ⟨cursor.label⟩]] ++
      cond.conditionSteps scope ⟨cursor.label + 1⟩ ++
      stepsAll scope (cursor.skip 3) alternative ++
      [.emit [.jump ⟨cursor.label + 2⟩, .label ⟨cursor.label + 1⟩]] ++
      stepsAll scope (afterAll (cursor.skip 3) alternative) body ++
      [.emit [.jump ⟨cursor.label + 2⟩, .label ⟨cursor.label + 2⟩]]
  | .loop body cond span =>
    [.note s!"loop at {span.text}", .emit [.newLabel, .label ⟨cursor.label⟩]] ++
      stepsAll scope (cursor.skip 1) body ++
      cond.conditionSteps scope ⟨cursor.label⟩
  | .print format args span => printSteps scope format args span

/-- The steps of statements, each after the echo of its line. -/
def stepsAll (scope : Scope) (cursor : Cursor) : List Stmt → List Step
  | [] => []
  | s :: ss =>
    .emit (scope.annotationEmissions cursor s.span) :: (s.steps scope (cursor.moveTo s.span) ++
      stepsAll scope (s.after (cursor.moveTo s.span)) ss)

end

/-! Every function that lowers gives the script of the steps. -/

namespace Scope

theorem tagOf_eq (s : Scope) (v : Variable) :
    s.tagOf v =
      (fun _ => s.storageTag v) <$> Script.give ((s.nameWarnings v).map Command.warn) := by
  unfold tagOf storageTag nameWarnings
  cases s.declared? v.name with
  | none => rfl
  | some t =>
    simp only
    split <;> rfl

theorem descriptor_eq (name : String) (tag : Tag) (span : Span) :
    descriptor name tag span = (fun _ => (Descriptor.ofTag? tag).getD Descriptor.placeholder) <$>
      Script.give ((descriptorWarnings name tag span).map Command.warn) := by
  unfold descriptor descriptorWarnings
  cases Descriptor.ofTag? tag <;> rfl

/-- Resolving a variable never fails and emits nothing. -/
theorem resolve_eq (s : Scope) (v : Variable) :
    s.resolve v = (fun _ => ⟨s.storageTag v, (s.fieldFor v).descriptor⟩) <$>
      Script.give ((s.referenceWarnings v).map Command.warn) := by
  rw [resolve, tagOf_eq, bind_map_left]
  simp only [descriptor_eq, referenceWarnings, List.map_append, ← Script.give_bind_give,
    map_eq_pure_bind, bind_assoc]
  rfl

theorem annotate_eq (scope : Scope) (cursor : Cursor) (span : Span) :
    scope.annotate cursor span =
      (fun _ => cursor.moveTo span) <$> Script.emitAll (scope.annotationEmissions cursor span) := by
  unfold annotate annotationEmissions Cursor.moveTo
  split <;> rfl

end Scope

namespace Expr

theorem lower_eq (scope : Scope) (e : Expr) :
    e.lower scope = Step.script scope (e.steps scope) := by
  induction e with
  | literal kind text tag span =>
    rw [steps, Step.script_around scope rfl]
    rfl
  | var v =>
    rw [lower, scope.resolve_eq, steps, Step.script_around scope rfl, bind_map_left]
    rfl
  | binary op left right tag span ihl ihr =>
    cases op with
    | relation rel => rfl
    | arithmetic op =>
      rw [steps, Step.script_around scope rfl, Step.script_append, ← ihl, ← ihr]
      simp only [lower, Script.ite_warn_bind, bind_assoc]
      rfl
  | negate operand tag span ih =>
    rw [steps, Step.script_around scope rfl, ← ih]
    simp only [lower, Script.ite_warn_bind]
    rfl

theorem lowerCondition_eq (scope : Scope) (target : Label) (e : Expr) :
    e.lowerCondition scope target = Step.script scope (e.conditionSteps scope target) := by
  match e with
  | binary (.relation rel) left right tag span =>
    rw [conditionSteps, Step.script_around scope rfl, Step.script_append, ← left.lower_eq,
      ← right.lower_eq]
    simp only [lowerCondition, Script.ite_warn_bind, bind_assoc]
    rfl
  | binary (.arithmetic op) left right tag span => rfl
  | literal kind text tag span => rfl
  | var v => rfl
  | negate operand tag span => rfl

end Expr

theorem lowerArguments_eq (scope : Scope) (index : Nat) (args : List Expr) :
    lowerArguments scope index args = Step.script scope (argumentSteps scope index args) := by
  induction args generalizing index with
  | nil => rfl
  | cons arg args ih =>
    rw [argumentSteps, Step.script_append, Step.script_around scope rfl, Step.script_emit,
      ← arg.lower_eq, ← ih]
    simp only [lowerArguments, Script.ite_warn_bind, bind_assoc]
    rfl

theorem lowerPrint_eq (scope : Scope) (format : String) (args : List Expr) (span : Span) :
    lowerPrint scope format args span = Step.script scope (printSteps scope format args span) := by
  rw [lowerPrint, printSteps, Step.script_note]
  cases hf : formatText? format with
  | none =>
    have hq : ¬ Quoted format := fun h => by simp [← isSome_formatText?_iff, hf] at h
    have hd : (Site.format format span).defect? = some (.malformedFormat format span) := if_neg hq
    exact congrArg (Script.note _ >>= fun _ => ·) (Step.script_enter_of_some scope hd _).symm
  | some text =>
    have hq : Quoted format := isSome_formatText?_iff.mp (by rw [hf]; rfl)
    have hd : (Site.format format span).defect? = none := if_pos hq
    simp only [List.append_assoc, Step.script_append, Step.script_around scope hd,
      Step.script_emit, ← lowerArguments_eq, bind_assoc]
    rfl

theorem lowerAssign_eq (scope : Scope) (target : Variable) (value : Expr) (span : Span) :
    lowerAssign scope target value span =
      Step.script scope (assignSteps scope target value span) := by
  rw [assignSteps, Step.script_note, Step.script_append, Step.script_around scope rfl,
    ← value.lower_eq, Site.warnings, List.map_append, ← Script.give_bind_give]
  simp only [lowerAssign, Script.ite_warn_bind, scope.resolve_eq, bind_map_left, bind_assoc]
  rfl

mutual

theorem Stmt.lowerBare_eq (scope : Scope) (cursor : Cursor) (s : Stmt) :
    s.lowerBare scope cursor =
      (fun _ => s.after cursor) <$> Step.script scope (s.steps scope cursor) := by
  cases s with
  | assign target value span =>
    rw [Stmt.lowerBare, lowerAssign_eq]
    rfl
  | block body span => exact lowerAll_eq scope cursor body
  | ifThen cond body span =>
    have hbody := lowerAll_eq scope { cursor with label := cursor.label + 3 } body
    simp only [Stmt.lowerBare, Stmt.steps, Step.script_append, Step.script_note, Step.script_emit,
      Step.script_nil, cond.lowerCondition_eq, hbody, map_eq_pure_bind, bind_assoc, pure_bind]
    rfl
  | ifElse cond body alternative span =>
    have halt := lowerAll_eq scope { cursor with label := cursor.label + 3 } alternative
    have hbody (c : Cursor) := lowerAll_eq scope c body
    simp only [Stmt.lowerBare, Stmt.steps, Step.script_append, Step.script_note, Step.script_emit,
      Step.script_nil, cond.lowerCondition_eq, halt, hbody, map_eq_pure_bind, bind_assoc, pure_bind]
    rfl
  | loop body cond span =>
    have hbody := lowerAll_eq scope { cursor with label := cursor.label + 1 } body
    simp only [Stmt.lowerBare, Stmt.steps, Step.script_append, Step.script_note, Step.script_emit,
      Step.script_nil, cond.lowerCondition_eq, hbody, map_eq_pure_bind, bind_assoc, pure_bind]
    rfl
  | print format args span =>
    rw [Stmt.lowerBare, lowerPrint_eq]
    rfl

theorem lowerAll_eq (scope : Scope) (cursor : Cursor) (ss : List Stmt) :
    lowerAll scope cursor ss =
      (fun _ => afterAll cursor ss) <$> Step.script scope (stepsAll scope cursor ss) := by
  cases ss with
  | nil => rfl
  | cons s ss =>
    rw [lowerAll, scope.annotate_eq, bind_map_left]
    simp only [s.lowerBare_eq, lowerAll_eq scope _ ss, stepsAll, afterAll, Step.script_emit,
      Step.script_append, map_eq_pure_bind, bind_assoc, pure_bind]

end

/-! The sites and the exits of the steps are those of the tree. -/

namespace Step

@[simp] theorem sites_around (site : Site) (inner : List Step) (es : List Emission) :
    (around site inner es).flatMap sites = site :: inner.flatMap sites := by
  simp [around, sites]

@[simp] theorem exits_around (site : Site) (inner : List Step) (es : List Emission) :
    (around site inner es).flatMap exits = inner.flatMap exits ++ [site] := by
  simp [around, exits]

@[simp] theorem sites_unlowered (xs ys : List Site) : (unlowered xs ys).flatMap sites = xs := by
  simp [unlowered, List.flatMap_map, sites]

@[simp] theorem exits_unlowered (xs ys : List Site) : (unlowered xs ys).flatMap exits = ys := by
  simp [unlowered, List.flatMap_map, exits]

end Step

namespace Expr

theorem sites_steps (scope : Scope) (e : Expr) :
    (e.steps scope).flatMap Step.sites = e.sites ∧
      (e.steps scope).flatMap Step.exits = e.exits := by
  induction e with
  | literal kind text tag span => exact ⟨rfl, rfl⟩
  | var v => exact ⟨rfl, rfl⟩
  | binary op left right tag span ihl ihr => simp [steps, sites, exits, ihl, ihr]
  | negate operand tag span ih => simp [steps, sites, exits, ih]

theorem sites_conditionSteps (scope : Scope) (target : Label) (e : Expr) :
    (e.conditionSteps scope target).flatMap Step.sites = e.conditionSites ∧
      (e.conditionSteps scope target).flatMap Step.exits = e.conditionExits := by
  cases e with
  | binary op left right tag span =>
    simp [conditionSteps, conditionSites, conditionExits, operands, sites_steps]
  | _ => simp [conditionSteps]

end Expr

theorem sites_argumentSteps (scope : Scope) (index : Nat) (args : List Expr) :
    (argumentSteps scope index args).flatMap Step.sites = argumentSites index args ∧
      (argumentSteps scope index args).flatMap Step.exits = argumentExits index args := by
  induction args generalizing index with
  | nil => exact ⟨rfl, rfl⟩
  | cons arg args ih =>
    simp [argumentSteps, argumentSites, argumentExits, arg.sites_steps, ih, Step.sites, Step.exits]

theorem sites_printSteps (scope : Scope) (format : String) (args : List Expr) (span : Span) :
    (printSteps scope format args span).flatMap Step.sites =
        .format format span :: argumentSites 0 args ∧
      (printSteps scope format args span).flatMap Step.exits =
        .format format span :: argumentExits 0 args := by
  unfold printSteps
  cases formatText? format with
  | none => simp [Step.sites, Step.exits]
  | some text => simp [sites_argumentSteps, Step.sites, Step.exits]

mutual

theorem Stmt.sites_steps (scope : Scope) (cursor : Cursor) (s : Stmt) :
    (s.steps scope cursor).flatMap Step.sites = s.sites ∧
      (s.steps scope cursor).flatMap Step.exits = s.exits := by
  cases s with
  | assign target value span =>
    simp [Stmt.steps, assignSteps, Stmt.sites, Stmt.exits, value.sites_steps, Step.sites,
      Step.exits]
  | block body span => exact sites_stepsAll scope cursor body
  | ifThen cond body span =>
    simp [Stmt.steps, Stmt.sites, Stmt.exits, cond.sites_conditionSteps,
      sites_stepsAll scope _ body, Step.sites, Step.exits]
  | ifElse cond body alternative span =>
    simp [Stmt.steps, Stmt.sites, Stmt.exits, cond.sites_conditionSteps,
      sites_stepsAll scope _ alternative, sites_stepsAll scope _ body, Step.sites, Step.exits]
  | loop body cond span =>
    simp [Stmt.steps, Stmt.sites, Stmt.exits, cond.sites_conditionSteps,
      sites_stepsAll scope _ body, Step.sites, Step.exits]
  | print format args span => exact sites_printSteps scope format args span

theorem sites_stepsAll (scope : Scope) (cursor : Cursor) (ss : List Stmt) :
    (stepsAll scope cursor ss).flatMap Step.sites = sitesAll ss ∧
      (stepsAll scope cursor ss).flatMap Step.exits = exitsAll ss := by
  cases ss with
  | nil => exact ⟨rfl, rfl⟩
  | cons s ss =>
    simp [stepsAll, sitesAll, exitsAll, s.sites_steps, sites_stepsAll scope _ ss, Step.sites,
      Step.exits]

end

/-- Lowering stops at the first site that is a defect. -/
theorem defect?_lowerAll (scope : Scope) (cursor : Cursor) (ss : List Stmt) :
    (lowerAll scope cursor ss).defect? = (sitesAll ss).findSome? Site.defect? := by
  rw [lowerAll_eq, Script.defect?_map, Step.defect?_script, (sites_stepsAll scope cursor ss).1]

/-- Lowering comes to its end where no site is a defect. -/
theorem result_lowerAll_iff {scope : Scope} {cursor next : Cursor} {ss : List Stmt} :
    (lowerAll scope cursor ss).result = .ok next ↔
      (∀ site ∈ sitesAll ss, site.defect? = none) ∧ next = afterAll cursor ss := by
  rw [lowerAll_eq, Step.result_map_script_iff, Step.result_script_iff,
    (sites_stepsAll scope cursor ss).1]

theorem Expr.result_lowerCondition_iff {scope : Scope} {target : Label} {e : Expr} :
    (e.lowerCondition scope target).result = .ok () ↔
      ∀ site ∈ e.conditionSites, site.defect? = none := by
  rw [e.lowerCondition_eq, Step.result_script_iff, (e.sites_conditionSteps scope target).1]

theorem Stmt.result_lowerBare_iff {scope : Scope} {cursor next : Cursor} {s : Stmt} :
    (s.lowerBare scope cursor).result = .ok next ↔
      (∀ site ∈ s.sites, site.defect? = none) ∧ next = s.after cursor := by
  rw [s.lowerBare_eq, Step.result_map_script_iff, Step.result_script_iff,
    (s.sites_steps scope cursor).1]

end StackLowering
