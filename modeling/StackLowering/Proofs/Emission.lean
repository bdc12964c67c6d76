import Mathlib.Tactic.Common
import StackLowering.Workbench

/-!
What a run leaves behind. A run without a fault only appends: the lines of its emissions to the
listing and the warnings of its commands to the warnings. Both can be read off the script alone,
so a class unit is what the script of its program writes on an empty workbench.
-/
namespace StackLowering

namespace Assembler

/-- The lines that an emission appends. -/
def written (a : Assembler) : Emission → List Line
  | .directive text => [.directive text]
  | .comment text => [.comment text]
  | .blank => [.blank]
  | .setLine _ | .newLabel => []
  | .lineDirective => [.directive (lineDirectiveText a.line)]
  | .instruction op operand => [.instruction op operand]
  | .invoke op method => [.instruction op (some method)]
  | .label l => [.label l]
  | .branch op target => [.branch op target]
  | .openMethod header => [.directive s!".method {header}", .blank]
  | .closeMethod locals stack =>
    [.blank, .directive s!".limit locals {locals}",
      .directive s!".limit stack {max stack.toNat a.peak}", .directive ".end method"]

theorem listing_emit (a : Assembler) (e : Emission) :
    (a.emit e).listing = a.listing ++ a.written e := by
  cases e with
  | setLine n => exact (List.append_nil _).symm
  | newLabel => exact (List.append_nil _).symm
  | label l => exact listing_push _ _
  | openMethod header =>
    change ((a.resetDepth.push _).push _).listing = _
    rw [listing_push, listing_push, List.append_assoc]
    rfl
  | closeMethod locals stack =>
    change ((((a.push _).push _).push _).push _).listing = _
    simp only [listing_push, List.append_assoc]
    rfl
  | _ => simp [emit, written]

/-- Add emissions one after another. -/
def emitAll (a : Assembler) (es : List Emission) : Assembler := es.foldl emit a

/-- The lines that emissions append one after another. -/
def writtenAll (a : Assembler) : List Emission → List Line
  | [] => []
  | e :: es => a.written e ++ (a.emit e).writtenAll es

@[simp] theorem emitAll_nil (a : Assembler) : a.emitAll [] = a := rfl

@[simp] theorem emitAll_cons (a : Assembler) (e : Emission) (es : List Emission) :
    a.emitAll (e :: es) = (a.emit e).emitAll es := rfl

@[simp] theorem emitAll_append (a : Assembler) (es fs : List Emission) :
    a.emitAll (es ++ fs) = (a.emitAll es).emitAll fs := List.foldl_append

@[simp] theorem writtenAll_nil (a : Assembler) : a.writtenAll [] = [] := rfl

@[simp] theorem writtenAll_cons (a : Assembler) (e : Emission) (es : List Emission) :
    a.writtenAll (e :: es) = a.written e ++ (a.emit e).writtenAll es := rfl

theorem writtenAll_append (a : Assembler) (es fs : List Emission) :
    a.writtenAll (es ++ fs) = a.writtenAll es ++ (a.emitAll es).writtenAll fs := by
  induction es generalizing a with
  | nil => rfl
  | cons e es ih => simp [ih]

theorem listing_emitAll (a : Assembler) (es : List Emission) :
    (a.emitAll es).listing = a.listing ++ a.writtenAll es := by
  induction es generalizing a with
  | nil => simp
  | cons e es ih => simp [ih, listing_emit]

end Assembler

namespace Command

def emission? : Command → Option Emission
  | emit e => some e
  | _ => none

def warning? : Command → Option Warning
  | warn w => some w
  | _ => none

end Command

namespace Script

variable {α β : Type}

def emissions (s : Script α) : List Emission := s.commands.filterMap Command.emission?

def warnings (s : Script α) : List Warning := s.commands.filterMap Command.warning?

@[simp] theorem emissions_emitAll (es : List Emission) : (emitAll es).emissions = es := by
  induction es with
  | nil => rfl
  | cons e es ih => exact congrArg (e :: ·) ih

@[simp] theorem warnings_emitAll (es : List Emission) : (emitAll es).warnings = [] := by
  induction es with
  | nil => rfl
  | cons e es ih => exact ih

theorem result_bind {s : Script α} {a : α} (h : s.result = .ok a) (f : α → Script β) :
    (s >>= f).result = (f a).result := by rw [bind_of_ok h]

theorem emissions_bind {s : Script α} {a : α} (h : s.result = .ok a) (f : α → Script β) :
    (s >>= f).emissions = s.emissions ++ (f a).emissions := by
  rw [bind_of_ok h]
  exact List.filterMap_append

theorem warnings_bind {s : Script α} {a : α} (h : s.result = .ok a) (f : α → Script β) :
    (s >>= f).warnings = s.warnings ++ (f a).warnings := by
  rw [bind_of_ok h]
  exact List.filterMap_append

end Script

namespace Workbench

@[simp] theorem assembler_perform (w : Workbench) (c : Command) :
    (w.perform c).assembler = w.assembler.emitAll c.emission?.toList := by
  cases c <;> rfl

@[simp] theorem warnings_perform (w : Workbench) (c : Command) :
    (w.perform c).warnings.toList = w.warnings.toList ++ c.warning?.toList := by
  cases c <;> simp [perform, Command.warning?]

/-- A run without a fault has performed every emission. -/
theorem assembler_run {w : Workbench} {cs : List Command} (h : (w.run cs).2 = none) :
    (w.run cs).1.assembler = w.assembler.emitAll (cs.filterMap Command.emission?) := by
  rw [run_eq_foldl h]
  clear h
  induction cs generalizing w with
  | nil => rfl
  | cons c cs ih =>
    rw [List.foldl_cons, ih, assembler_perform, ← Assembler.emitAll_append]
    cases c <;> rfl

/-- A run without a fault has recorded every warning. -/
theorem warnings_run {w : Workbench} {cs : List Command} (h : (w.run cs).2 = none) :
    (w.run cs).1.warnings.toList = w.warnings.toList ++ cs.filterMap Command.warning? := by
  rw [run_eq_foldl h]
  clear h
  induction cs generalizing w with
  | nil => simp
  | cons c cs ih =>
    rw [List.foldl_cons, ih, warnings_perform, List.append_assoc]
    cases c <;> rfl

/-- A script is played to its end only without a fault. -/
theorem play_eq_ok {α : Type} {w v : Workbench} {s : Script α} {a : α}
    (h : w.play s = (v, .ok a)) : w.run s.commands = (v, none) ∧ s.result = .ok a := by
  unfold play at h
  rcases hrun : w.run s.commands with ⟨x, _ | f⟩
  · rw [hrun] at h
    cases hr : s.result with
    | error d => simp [hr, Except.mapError] at h
    | ok b =>
      simp only [hr, Except.mapError, Prod.mk.injEq, Except.ok.injEq] at h
      obtain ⟨rfl, rfl⟩ := h
      exact ⟨rfl, rfl⟩
  · rw [hrun] at h
    simp at h

end Workbench

/-- A class unit holds the lines and the warnings of its program's script. -/
theorem Program.unit_eq_ok {p : Program} {options : Options} {u : ClassUnit}
    (h : p.unit options = .ok u) :
    (p.lower options).result = .ok () ∧
      u.listing = Assembler.writtenAll {} (p.lower options).emissions ∧
      u.warnings = (p.lower options).warnings := by
  unfold unit assemble at h
  rcases hplay : Workbench.play {} (p.lower options) with ⟨w, stop | ⟨⟩⟩
  · simp [hplay] at h
  · obtain ⟨hrun, hr⟩ := Workbench.play_eq_ok hplay
    have hf : (Workbench.run {} (p.lower options).commands).2 = none := by rw [hrun]
    have hl := Workbench.assembler_run hf
    have hw := Workbench.warnings_run hf
    rw [hrun] at hl hw
    simp only [hplay, Except.ok.injEq] at h
    subst h
    refine ⟨hr, ?_, hw⟩
    change w.assembler.listing = _
    rw [hl, Assembler.listing_emitAll]
    rfl

end StackLowering
