import StackLowering.Assembly.Assembler
import StackLowering.Diagnostic.Defect
import StackLowering.Diagnostic.Warning

/-!
Scripts. Lowering a tree does not change anything: it yields a script, the list of commands that
build its code, together with a value or with the defect at which lowering stopped. The commands
before a defect are kept, and sequencing scripts concatenates their commands.
-/
namespace StackLowering

inductive Command where
  | emit (e : Emission)
  | warn (w : Warning)
  /-- Note in the journal what is being worked on. -/
  | note (text : String)
deriving DecidableEq, Repr

structure Script (α : Type) where
  commands : List Command
  result : Except Defect α

namespace Script

variable {α β γ : Type}

def pure (a : α) : Script α := ⟨[], .ok a⟩

def bind (s : Script α) (f : α → Script β) : Script β :=
  match s.result with
  | .ok a =>
    let t := f a
    ⟨s.commands ++ t.commands, t.result⟩
  | .error d => ⟨s.commands, .error d⟩

instance : Monad Script where
  pure := Script.pure
  bind := Script.bind

/-- Give a list of commands. -/
def give (cs : List Command) : Script Unit := ⟨cs, .ok ()⟩

def emit (e : Emission) : Script Unit := give [.emit e]

def emitAll (es : List Emission) : Script Unit := give (es.map .emit)

def warn (w : Warning) : Script Unit := give [.warn w]

def note (text : String) : Script Unit := give [.note text]

/-- Stop at a defect. -/
def fail (d : Defect) : Script α := ⟨[], .error d⟩

@[simp] theorem commands_fail (d : Defect) : (fail d : Script α).commands = [] := rfl
@[simp] theorem result_fail (d : Defect) : (fail d : Script α).result = .error d := rfl

theorem bind_of_ok {s : Script α} {a : α} (h : s.result = .ok a) (f : α → Script β) :
    s >>= f = ⟨s.commands ++ (f a).commands, (f a).result⟩ := by
  change Script.bind s f = _
  simp [Script.bind, h]

theorem bind_of_error {s : Script α} {d : Defect} (h : s.result = .error d) (f : α → Script β) :
    s >>= f = ⟨s.commands, .error d⟩ := by
  change Script.bind s f = _
  simp [Script.bind, h]

theorem bind_result_eq_ok_iff {s : Script α} {f : α → Script β} {b : β} :
    (s >>= f).result = .ok b ↔ ∃ a, s.result = .ok a ∧ (f a).result = .ok b := by
  cases h : s.result with
  | ok a => rw [bind_of_ok h]; simp
  | error d => rw [bind_of_error h]; simp

@[simp] theorem commands_map (f : α → β) (s : Script α) : (f <$> s).commands = s.commands := by
  rcases s with ⟨cs, d | a⟩
  · rfl
  · exact List.append_nil cs

@[simp] theorem result_map (f : α → β) (s : Script α) : (f <$> s).result = s.result.map f := by
  rcases s with ⟨cs, d | a⟩ <;> rfl

theorem map_id_self (s : Script α) : id <$> s = s := by
  rcases s with ⟨cs, a | d⟩
  · rfl
  · change Script.mk (cs ++ []) _ = _
    rw [List.append_nil]
    rfl

theorem bind_bind (s : Script α) (f : α → Script β) (g : β → Script γ) :
    s >>= f >>= g = s >>= fun a => f a >>= g := by
  rcases s with ⟨cs, d | a⟩
  · rfl
  · rw [bind_of_ok (a := a) rfl, bind_of_ok (a := a) rfl]
    cases h : (f a).result with
    | ok b => rw [bind_of_ok h, bind_of_ok (a := b) rfl, List.append_assoc]
    | error d => rw [bind_of_error h, bind_of_error (d := d) rfl]

instance : LawfulMonad Script := LawfulMonad.mk' Script map_id_self (fun _ _ => rfl) bind_bind

end Script

end StackLowering
