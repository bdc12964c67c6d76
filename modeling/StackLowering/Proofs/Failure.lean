import StackLowering.Proofs.Labels
import StackLowering.Proofs.Sites

/-!
Failure of lowering. No command of a program's script is a fault, whether lowering comes to its end
or stops at a defect: branches have operations that branch, methods have parentheses in order, and
each label is placed once. So a unit fails for one reason only, a defect of its tree, and then with
the first defect in the order of lowering.
-/
namespace StackLowering

open Listing

theorem Invocation.isSome_effect?_constructor (className : String) (receiver : Bool) :
    (effect? (Descriptor.constructor className) receiver).isSome = true := by
  obtain ⟨slots, he⟩ := effect?_constructor className receiver
  rw [he]
  rfl

namespace Emission

/-- Whether an emission is sound and neither makes nor places a label. -/
def isUnlabelled (e : Emission) : Bool := e.isSound && (e.placed?.isNone && e != .newLabel)

theorem isUnlabelled_iff {e : Emission} :
    e.isUnlabelled = true ↔ e.isSound = true ∧ e.placed? = none ∧ e ≠ .newLabel := by
  simp [isUnlabelled]

theorem sound_of_unlabelled {es : List Emission} (h : es.all isUnlabelled = true) :
    (∀ e ∈ es, e.isSound = true) ∧ es.filterMap placed? = [] := by
  have hplain (e : Emission) (he : e ∈ es) := isUnlabelled_iff.mp (List.all_eq_true.mp h e he)
  exact ⟨fun e he => (hplain e he).1, List.filterMap_eq_nil_iff.mpr fun e he => (hplain e he).2.1⟩

theorem count_newLabel_of_unlabelled {es : List Emission} (h : es.all isUnlabelled = true) :
    es.count .newLabel = 0 := by
  apply List.count_eq_zero_of_not_mem
  intro hmem
  exact (isUnlabelled_iff.mp (List.all_eq_true.mp h _ hmem)).2.2 rfl

theorem isUnlabelled_constructor (className : String) :
    (invoke .invokeNonVirtual (Descriptor.constructor className)).isUnlabelled = true := by
  simp [isUnlabelled_iff, isSound, placed?, Opcode.isBranch, Invocation.isSome_effect?_constructor]

theorem filterMap_placed?_cons (e : Emission) (es : List Emission) :
    (e :: es).filterMap placed? = e.placed?.toList ++ es.filterMap placed? := by
  cases h : e.placed? <;> simp [h]

end Emission

namespace Assembler

/-- A sound emission is a fault only if it places a label again. -/
theorem fault?_eq_none {a : Assembler} {e : Emission} (hs : e.isSound = true)
    (hl : ∀ l ∈ e.placed?, l ∉ a.labels.placed) : a.fault? e = none := by
  cases e with
  | invoke op method =>
    have he := (Bool.and_eq_true_iff.mp hs).2
    simp [fault?, he]
  | label l =>
    have hn : a.labels.isPlaced l = false := by
      rw [Bool.eq_false_iff]
      exact fun h => hl l rfl ((a.labels.isPlaced_iff l).mp h)
    simp [fault?, hn]
  | branch op target => exact if_pos hs
  | _ => rfl

theorem mem_placed_emit {a : Assembler} {e : Emission} {l : Label} :
    l ∈ (a.emit e).labels.placed ↔ l ∈ e.placed? ∨ l ∈ a.labels.placed := by
  cases e with
  | label m =>
    change l ∈ (a.labels.place m).placed ↔ _
    rw [LabelSupply.mem_placed_place, Emission.placed?, Option.mem_some, eq_comm]
  | _ => simp [emit, Emission.placed?, push, adjust, resetDepth]

end Assembler

namespace Workbench

/-- Sound emissions that place each label once, and no label that is placed already, run without a
fault. -/
theorem run_eq_none {w : Workbench} {cs : List Command}
    (hs : ∀ e ∈ cs.filterMap Command.emission?, e.isSound = true)
    (hn : ((cs.filterMap Command.emission?).filterMap Emission.placed?).Nodup)
    (hf : ∀ l ∈ (cs.filterMap Command.emission?).filterMap Emission.placed?,
      l ∉ w.assembler.labels.placed) : (w.run cs).2 = none := by
  induction cs generalizing w with
  | nil => rfl
  | cons c cs ih =>
    cases c with
    | warn x => exact ih hs hn hf
    | note text => exact ih hs hn hf
    | emit e =>
      change ∀ f ∈ e :: cs.filterMap Command.emission?, f.isSound = true at hs
      change ((e :: cs.filterMap Command.emission?).filterMap Emission.placed?).Nodup at hn
      change ∀ l ∈ (e :: cs.filterMap Command.emission?).filterMap Emission.placed?, _ at hf
      rw [Emission.filterMap_placed?_cons, List.nodup_append] at hn
      obtain ⟨-, hn, hne⟩ := hn
      rw [Emission.filterMap_placed?_cons] at hf
      have hfault : w.fault? (.emit e) = none := by
        refine Assembler.fault?_eq_none (hs e List.mem_cons_self) fun l hl => hf l ?_
        exact List.mem_append_left _ (Option.mem_toList.mpr hl)
      simp only [run, hfault]
      refine ih (fun f hm => hs f (List.mem_cons_of_mem e hm)) hn fun l hl hplaced => ?_
      rw [assembler_perform] at hplaced
      rcases Assembler.mem_placed_emit.mp hplaced with h | h
      · exact hne l (Option.mem_toList.mpr h) l hl rfl
      · exact hf l (List.mem_append_right _ hl) h

end Workbench

/-! Lowering places the labels of the tree's code in their order, up to the first defect. -/

namespace Script

variable {α : Type}

/-- The labels that a script places. -/
def placed (s : Script α) : List Label := s.emissions.filterMap Emission.placed?

/-- A script with sound emissions that places labels in a given order, and all of them unless it
stops. -/
structure Places (s : Script α) (ls : List Label) : Prop where
  sound : ∀ e ∈ s.emissions, e.isSound = true
  start : s.placed <+: ls

theorem Places.of_isPrefix {s : Script α} {es : List Emission} (h : s.emissions <+: es)
    (hs : ∀ e ∈ es, e.isSound = true) : s.Places (es.filterMap Emission.placed?) :=
  ⟨fun e he => hs e (h.subset he), h.filterMap _⟩

end Script

theorem Emission.Build.sound {c d : Cursor} {es : List Emission} {ls : List Line}
    (h : Build c es ls d) : ∀ e ∈ es, e.isSound = true :=
  fun e he => (Bool.and_eq_true_iff.mp (h.proper e he)).2

theorem Emission.Build.placed {c d : Cursor} {es : List Emission} {ls : List Line}
    (h : Build c es ls d) : es.filterMap placed? = definedLabels ls := by
  rw [← h.written { line := c.line } rfl, Assembler.definedLabels_writtenAll]

theorem prefix_emissions_lowerAll (scope : Scope) (cursor : Cursor) (ss : List Stmt) :
    (lowerAll scope cursor ss).emissions <+:
      (stepsAll scope cursor ss).flatMap Step.emissions := by
  rw [lowerAll_eq, Script.emissions_map]
  exact Step.prefix_emissions_script scope _

theorem lowerAll_places (scope : Scope) (cursor : Cursor) (ss : List Stmt) :
    (lowerAll scope cursor ss).Places (definedLabels (codeAll scope cursor ss)) := by
  have hbuild := build_stepsAll scope cursor ss
  rw [← hbuild.placed]
  exact .of_isPrefix (prefix_emissions_lowerAll scope cursor ss) hbuild.sound

namespace Program

theorem prefix_emissions_lower (p : Program) (options : Options) :
    (p.lower options).emissions <+:
      (p.frontCommands options).filterMap Command.emission? ++
        ((stepsAll (p.scope options) ⟨0, 0⟩ p.body).flatMap Step.emissions ++
          (p.scope options).epilogue.emissions) := by
  rw [lower_eq, Script.emissions_bind rfl, Script.emissions_give]
  refine (List.prefix_append_right_inj _).mpr ?_
  cases h : (lowerAll (p.scope options) ⟨0, 0⟩ p.body).result with
  | error d =>
    rw [Script.bind_of_error h]
    exact (prefix_emissions_lowerAll _ _ _).trans (List.prefix_append _ _)
  | ok c => exact ⟨[], by rw [Script.emissions_bind h, emissions_lowerAll h, List.append_nil]⟩

/-- What is emitted before the body is sound and places no label. -/
theorem isUnlabelled_frontCommands (p : Program) (options : Options) :
    ((p.frontCommands options).filterMap Command.emission?).all Emission.isUnlabelled = true := by
  have hdecls : (p.decls.all fun d => (d.emissions options).all Emission.isUnlabelled) = true := by
    refine List.all_eq_true.mpr fun d _ => ?_
    unfold Declaration.emissions
    cases options.sourceComments <;> rfl
  have hmake (s : Library.Support) :
      ((p.scope options).makeSupport s).all Emission.isUnlabelled = true := by
    simp only [Scope.makeSupport, List.all_cons, Emission.isUnlabelled_constructor]
    rfl
  simp only [emissions_frontCommands, preamble, List.all_append, List.all_flatMap, List.all_cons,
    hdecls, hmake, Emission.isUnlabelled_constructor]
  rfl

theorem isUnlabelled_epilogue (scope : Scope) :
    scope.epilogue.emissions.all Emission.isUnlabelled = true := by
  have htime : (Emission.invoke .invokeVirtual Library.printElapsedTime).isUnlabelled = true := by
    decide
  rw [Scope.epilogue, Script.emissions_emitAll]
  simp only [List.all_cons, htime]
  rfl

theorem lower_places (p : Program) (options : Options) :
    (p.lower options).Places (definedLabels (codeAll (p.scope options) ⟨0, 0⟩ p.body)) := by
  have hbuild := build_stepsAll (p.scope options) ⟨0, 0⟩ p.body
  obtain ⟨hsf, hpf⟩ := Emission.sound_of_unlabelled (p.isUnlabelled_frontCommands options)
  obtain ⟨hsb, hpb⟩ := Emission.sound_of_unlabelled (isUnlabelled_epilogue (p.scope options))
  have hplaces : (p.lower options).Places _ := .of_isPrefix (p.prefix_emissions_lower options) (by
    simp only [List.forall_mem_append]
    exact ⟨hsf, hbuild.sound, hsb⟩)
  rwa [List.filterMap_append, List.filterMap_append, hpf, hpb, hbuild.placed, List.nil_append,
    List.append_nil] at hplaces

/-- No command of a program is a fault. -/
theorem run_lower (p : Program) (options : Options) :
    (Workbench.run {} (p.lower options).commands).2 = none := by
  have hp := p.lower_places options
  refine Workbench.run_eq_none hp.sound ?_ fun _ _ => List.not_mem_nil
  refine hp.start.sublist.nodup (List.nodup_iff_count.mpr fun l => ?_)
  rw [count_definedLabels_codeAll, Label.countIn]
  split <;> omega

/-- A unit fails only where its script stops, and with the same defect. -/
theorem unit_eq_error_iff {p : Program} {options : Options} {stop : Stop Defect} :
    p.unit options = .error stop ↔ ∃ d, (p.lower options).defect? = some d ∧ stop = .error d := by
  have hrun := p.run_lower options
  unfold unit assemble Workbench.play Script.defect?
  rcases h : Workbench.run {} (p.lower options).commands with ⟨w, f⟩
  rw [h] at hrun
  subst hrun
  cases (p.lower options).result with
  | ok a => simp [Except.mapError]
  | error d => simp [Except.mapError, eq_comm]

theorem unit_eq_error_of_defect {p : Program} {d : Defect}
    (h : p.sites.findSome? Site.defect? = some d) (options : Options) :
    p.unit options = .error (.error d) :=
  unit_eq_error_iff.mpr ⟨d, (p.defect?_lower options).trans h, rfl⟩

theorem exists_unit_of_no_defect {p : Program} (h : p.sites.findSome? Site.defect? = none)
    (options : Options) : ∃ u, p.unit options = .ok u := by
  cases hu : p.unit options with
  | ok u => exact ⟨u, rfl⟩
  | error stop =>
    obtain ⟨d, hd, -⟩ := unit_eq_error_iff.mp hu
    rw [p.defect?_lower options, h] at hd
    contradiction

/-- A unit fails exactly if its tree has a comparison where a value is needed, a condition that does
not compare, or a format that is not quoted; and it fails with the first of these in the order of
lowering. -/
theorem fails_at_first_defect (p : Program) (options : Options) :
    ((∃ stop, p.unit options = .error stop) ↔
      (∃ e, .value e ∈ p.sites ∧ e.isComparison = true) ∨
        (∃ e, .condition e ∈ p.sites ∧ e.isComparison = false) ∨
        ∃ literal span, .format literal span ∈ p.sites ∧ ¬ Quoted literal) ∧
      ∀ stop, p.unit options = .error stop ↔
        ∃ d, p.sites.findSome? Site.defect? = some d ∧ stop = .error d := by
  have hfirst (stop : Stop Defect) : p.unit options = .error stop ↔
      ∃ d, p.sites.findSome? Site.defect? = some d ∧ stop = .error d := by
    rw [unit_eq_error_iff, defect?_lower]
  refine ⟨?_, hfirst⟩
  calc (∃ stop, p.unit options = .error stop)
      ↔ (p.sites.findSome? Site.defect?).isSome = true := by
        simp [hfirst, Option.isSome_iff_exists]
    _ ↔ ∃ site ∈ p.sites, site.defect?.isSome = true := List.findSome?_isSome_iff
    _ ↔ _ := by
      simp only [Site.isSome_defect?_iff]
      grind

end Program

end StackLowering
