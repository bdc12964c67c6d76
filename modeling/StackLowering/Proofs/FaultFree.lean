import StackLowering.Proofs.Failure

/-!
Work without faults. Three emissions make no sense: a label that is defined already, a branch by an
operation that does not branch, and a method whose last closing parenthesis stands before its first
opening one. Lowering asks for none of them, whatever the tree and the options are, and whether it
comes to its end or stops at a defect.
-/
namespace StackLowering

open Listing

namespace Invocation

/-- A reference whose first opening parenthesis stands before its last closing one. -/
def InOrder (cs : List Char) : Prop :=
  ∃ front parameters back, cs = front ++ '(' :: (parameters ++ ')' :: back) ∧ '(' ∉ front ∧
    ')' ∉ back

/-- What stands behind the first occurrence of a character. -/
theorem tail_dropWhile_of_notMem {c : Char} {front : List Char} (h : c ∉ front)
    (back : List Char) : ((front ++ c :: back).dropWhile (· ≠ c)).tail = back := by
  have hfront : ∀ a ∈ front, decide (a ≠ c) = true := by
    intro a ha
    exact decide_eq_true fun he => h (he ▸ ha)
  rw [List.dropWhile_append_of_pos hfront, List.dropWhile_cons_of_neg (by simp), List.tail_cons]

/-- A character that occurs has a last occurrence. -/
theorem exists_last_of_mem {c : Char} {cs : List Char} (h : c ∈ cs) :
    ∃ front back, cs = front ++ c :: back ∧ c ∉ back := by
  obtain ⟨back, front, hcs, hback⟩ := List.eq_append_cons_of_mem (List.mem_reverse.mpr h)
  refine ⟨front.reverse, back.reverse, ?_, fun hm => hback (List.mem_reverse.mp hm)⟩
  rw [← cs.reverse_reverse, hcs]
  simp

/-- The order shows in what stands behind the first opening parenthesis. -/
theorem mem_tail_dropWhile_iff {cs : List Char} (h : '(' ∈ cs) :
    ')' ∈ (cs.dropWhile (· ≠ '(')).tail ↔ InOrder cs := by
  obtain ⟨front, rest, rfl, hfront⟩ := List.eq_append_cons_of_mem h
  rw [tail_dropWhile_of_notMem hfront]
  constructor
  · intro hrest
    obtain ⟨parameters, back, rfl, hback⟩ := exists_last_of_mem hrest
    exact ⟨front, parameters, back, rfl, hfront, hback⟩
  · rintro ⟨front', parameters, back, hcs, hfront', -⟩
    have hrest := congrArg (fun cs => (cs.dropWhile (· ≠ '(')).tail) hcs
    simp only [tail_dropWhile_of_notMem hfront, tail_dropWhile_of_notMem hfront'] at hrest
    simp [hrest]

theorem shape_eq_crossed_iff {cs : List Char} :
    shape cs = .crossed ↔ '(' ∈ cs ∧ ')' ∈ cs ∧ ¬ InOrder cs := by
  unfold shape
  by_cases hmem : '(' ∈ cs ∧ ')' ∈ cs
  · rw [if_pos hmem, ← mem_tail_dropWhile_iff hmem.1]
    simp [hmem]
  · rw [if_neg hmem]
    simp only [reduceCtorEq, ← and_assoc, hmem, false_and]

/-- Only crossed parentheses keep a method from having an effect. -/
theorem isSome_effect?_iff {method : String} (receiver : Bool) :
    (effect? method receiver).isSome = true ↔
      ('(' ∈ method.toList → ')' ∈ method.toList → InOrder method.toList) := by
  have hcrossed : (effect? method receiver).isSome = true ↔ shape method.toList ≠ .crossed := by
    unfold effect?
    cases shape method.toList <;> simp
  rw [hcrossed, Ne, shape_eq_crossed_iff]
  tauto

end Invocation

/-- What adding an emission to a listing requires. -/
def Emission.Permitted (a : Assembler) : Emission → Prop
  | .label l => l ∉ definedLabels a.listing
  | .branch op _ => op.isBranch = true
  | .invoke _ method =>
    '(' ∈ method.toList → ')' ∈ method.toList → Invocation.InOrder method.toList
  | _ => True

namespace Assembler

/-- The labels that count as placed are those that the listing defines. -/
def Recorded (a : Assembler) : Prop := ∀ l, l ∈ a.labels.placed ↔ l ∈ definedLabels a.listing

theorem Recorded.emit {a : Assembler} (h : a.Recorded) (e : Emission) : (a.emit e).Recorded := by
  intro l
  rw [mem_placed_emit, h l, listing_emit, definedLabels_append, definedLabels_written,
    List.mem_append, Option.mem_toList]
  exact or_comm

theorem Recorded.emitAll {a : Assembler} (h : a.Recorded) (es : List Emission) :
    (a.emitAll es).Recorded := by
  induction es generalizing a with
  | nil => exact h
  | cons e es ih => exact ih (h.emit e)

theorem fault?_eq_none_iff {a : Assembler} (h : a.Recorded) {e : Emission} :
    a.fault? e = none ↔ e.Permitted a := by
  cases e with
  | invoke op method =>
    rw [Emission.Permitted, ← Invocation.isSome_effect?_iff (hasReceiver op), fault?]
    split <;> simp_all
  | label l =>
    rw [Emission.Permitted, ← h l, ← LabelSupply.isPlaced_iff, fault?]
    split <;> simp_all
  | branch op target =>
    rw [Emission.Permitted, fault?]
    split <;> simp_all
  | _ => exact ⟨fun _ => trivial, fun _ => rfl⟩

end Assembler

namespace Workbench

/-- A run without a fault comes to each of its commands, and the command is no fault there. -/
theorem exists_run_of_append {w : Workbench} {cs ds : List Command} {c : Command}
    (h : (w.run (cs ++ c :: ds)).2 = none) :
    ∃ v, w.run cs = (v, none) ∧ v.fault? c = none := by
  rw [run_append] at h
  rcases hrun : w.run cs with ⟨v, f⟩
  rw [hrun] at h
  cases f with
  | some f => contradiction
  | none =>
    refine ⟨v, rfl, ?_⟩
    cases hf : v.fault? c with
    | none => rfl
    | some f => simp [run, hf] at h

end Workbench

namespace Program

/-- Lowering a program ends with a class unit or with a defect of its tree, and never with a fault.
Up to there every emission is one that its listing permits. -/
theorem lowering_never_faults (p : Program) (options : Options) :
    ((∃ u, p.unit options = .ok u) ∨ ∃ d, p.unit options = .error (.error d)) ∧
      ∀ front e back, (p.lower options).commands = front ++ .emit e :: back →
        ∃ w, Workbench.run {} front = (w, none) ∧ e.Permitted w.assembler := by
  constructor
  · cases h : p.unit options with
    | ok u => exact .inl ⟨u, rfl⟩
    | error stop =>
      obtain ⟨d, -, rfl⟩ := unit_eq_error_iff.mp h
      exact .inr ⟨d, rfl⟩
  · intro front e back hsplit
    have hrun := p.run_lower options
    rw [hsplit] at hrun
    obtain ⟨w, hfront, hfault⟩ := Workbench.exists_run_of_append hrun
    have hnone : (Workbench.run {} front).2 = none := by rw [hfront]
    have hassembler := Workbench.assembler_run hnone
    have hrecorded : w.assembler.Recorded := by
      rw [hfront] at hassembler
      rw [hassembler]
      exact Assembler.Recorded.emitAll (fun l => Iff.rfl) _
    exact ⟨w, hfront, (Assembler.fault?_eq_none_iff hrecorded).mp hfault⟩

/-- A superclass of two crossed parentheses leaves those of its constructor in order. -/
theorem countdown_never_faults :
    ∃ front back w, (countdown.lower { superClass := ")(" }).commands =
        front ++ .emit (.invoke .invokeNonVirtual ")(/<init>()V") :: back ∧
      Workbench.run {} front = (w, none) ∧
      Emission.Permitted w.assembler (.invoke .invokeNonVirtual ")(/<init>()V") := by
  have hsplit : (countdown.lower { superClass := ")(" }).commands =
      (countdown.lower { superClass := ")(" }).commands.take 17 ++
        .emit (.invoke .invokeNonVirtual ")(/<init>()V") ::
          (countdown.lower { superClass := ")(" }).commands.drop 18 := rfl
  obtain ⟨w, hw⟩ := (lowering_never_faults countdown { superClass := ")(" }).2 _ _ _ hsplit
  exact ⟨_, _, w, hsplit, hw⟩

end Program

end StackLowering
