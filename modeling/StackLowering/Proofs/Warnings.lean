import StackLowering.Proofs.ClassLayout

/-!
The warnings of a tree. What lowering warns about is a function of the tree and of the scope: the
warnings of a tree are those of its exits, one after another. A unit has the warnings of its
program's declarations and then those of its body.
-/
namespace StackLowering

/-- A tree without defects is lowered with the warnings of its exits. -/
theorem warnings_lowerAll {scope : Scope} {cursor next : Cursor} {ss : List Stmt}
    (h : (lowerAll scope cursor ss).result = .ok next) :
    (lowerAll scope cursor ss).warnings = (exitsAll ss).flatMap (Site.warnings scope) := by
  rw [lowerAll_eq] at h ⊢
  obtain ⟨hok, -⟩ := (Step.result_map_script_iff scope).mp h
  rw [Script.warnings_map, Step.warnings_script scope hok, (sites_stepsAll scope cursor ss).2]

namespace Program

/-- The warnings of a program. -/
def warnings (p : Program) (options : Options) : List Warning :=
  declarationWarnings (Scope.ofProgram options p) p.decls ++
    p.exits.flatMap (Site.warnings (p.scope options))

theorem warnings_lower {p : Program} {options : Options} (h : (p.lower options).result = .ok ()) :
    (p.lower options).warnings = p.warnings options := by
  obtain ⟨hb, -⟩ := lower_ok h
  rw [lower_eq, Script.warnings_bind rfl, Script.warnings_bind hb, Script.warnings_give,
    warnings_frontCommands, warnings_lowerAll hb, Scope.epilogue, Script.warnings_emitAll,
    List.append_nil]
  rfl

theorem warnings_unit {p : Program} {options : Options} {u : ClassUnit}
    (h : p.unit options = .ok u) : u.warnings = p.warnings options := by
  obtain ⟨hr, -, hw⟩ := unit_eq_ok h
  rw [hw, warnings_lower hr]

/-- A variable without a numeric tag, one that is declared twice, and one that is not declared. -/
def muddle : Program where
  name := "Muddle"
  decls := [⟨"a", .unknown, ⟨1, 5, 1⟩⟩, ⟨"b", .integer, ⟨1, 14, 1⟩⟩, ⟨"b", .real, ⟨1, 27, 1⟩⟩]
  body :=
    [.assign ⟨"b", .real, ⟨3, 3, 1⟩⟩
        (.negate (.binary (.arithmetic .add) (.var ⟨"a", .unknown, ⟨3, 10, 1⟩⟩)
          (.literal .int "1" .integer ⟨3, 14, 1⟩) .unknown ⟨3, 10, 5⟩) .unknown ⟨3, 8, 8⟩)
        ⟨3, 3, 13⟩,
      .ifThen (.binary (.relation .lt) (.var ⟨"c", .unknown, ⟨4, 6, 1⟩⟩)
          (.literal .float "0.5" .real ⟨4, 10, 3⟩) .unknown ⟨4, 6, 7⟩)
        [.print "'%f\\n'" [.var ⟨"b", .real, ⟨5, 19, 1⟩⟩] ⟨5, 5, 16⟩] ⟨4, 3, 2⟩]

theorem muddle_unit : ∃ u, muddle.unit {} = .ok u ∧ u.isClean = false := ⟨_, rfl, rfl⟩

end Program

end StackLowering
