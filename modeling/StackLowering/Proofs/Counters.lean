import StackLowering.Proofs.Bookkeeping
import StackLowering.Proofs.LabelDiscipline

/-!
Counters. Lowering counts labels itself, and its count is that of the supply which hands them out.
Label numbers, depths and peaks have no bounds here, but what was emitted bounds them: along the
making of a class with a text of fewer than `2 ^ 30` characters, label numbers are words of 32 bits
and depths are signed ones.
-/
namespace StackLowering

open Listing

/-! The two counts of labels. -/

theorem count_newLabel_lowerAll {scope : Scope} {cursor next : Cursor} {ss : List Stmt}
    (h : (lowerAll scope cursor ss).result = .ok next) :
    cursor.label + (lowerAll scope cursor ss).emissions.count .newLabel = next.label := by
  obtain ⟨-, rfl⟩ := result_lowerAll_iff.mp h
  rw [emissions_lowerAll h]
  exact (build_stepsAll scope cursor ss).labels

/-- Where the next label of the supply is the cursor's, it is so again after statements. -/
theorem next_play_lowerAll {w v : Workbench} {scope : Scope} {cursor next : Cursor}
    {ss : List Stmt} (h : w.play (lowerAll scope cursor ss) = (v, .ok next))
    (hw : w.assembler.labels.next = cursor.label) : v.assembler.labels.next = next.label := by
  obtain ⟨hrun, hr⟩ := Workbench.play_eq_ok h
  have hassembler : (w.run (lowerAll scope cursor ss).commands).1.assembler = _ :=
    Workbench.assembler_run (by rw [hrun])
  rw [hrun] at hassembler
  rw [hassembler, Assembler.next_emitAll, hw]
  exact count_newLabel_lowerAll hr

namespace Program

variable {p : Program} {options : Options} {u : ClassUnit}

/-- Over a whole class, the supply hands out the labels that lowering counts in the body. -/
theorem count_newLabel_lower (h : (p.lower options).result = .ok ()) :
    (p.lower options).emissions.count .newLabel = (afterAll ⟨0, 0⟩ p.body).label := by
  obtain ⟨hb, -⟩ := lower_ok h
  have hfront := Emission.count_newLabel_of_unlabelled (p.isUnlabelled_frontCommands options)
  have hback := Emission.count_newLabel_of_unlabelled (isUnlabelled_epilogue (p.scope options))
  have hbody := count_newLabel_lowerAll hb
  rw [lower_eq, Script.emissions_bind rfl, Script.emissions_bind hb, Script.emissions_give,
    List.count_append, List.count_append, hfront, hback]
  omega

theorem next_lower (h : p.unit options = .ok u) :
    (Assembler.emitAll {} (p.lower options).emissions).labels.next =
      (afterAll ⟨0, 0⟩ p.body).label := by
  obtain ⟨hr, -⟩ := unit_eq_ok h
  rw [Assembler.next_emitAll, count_newLabel_lower hr]
  exact Nat.zero_add _

end Program

/-! How far the depth moves. -/

namespace Invocation

theorem slotsFrom_le (s : Scan) (cs : List Char) : slotsFrom s cs ≤ 2 * cs.length := by
  fun_induction slotsFrom s cs with
  | case1 => exact Nat.zero_le _
  | _ => simp only [List.length_cons]; omega

theorem length_parameters {cs ps r : List Char} (h : shape cs = .signature ps r) :
    ps.length ≤ cs.length := by
  unfold shape at h
  split at h
  · simp only at h
    split at h
    · cases h
      have hback := (List.tail_sublist _).trans
        (List.dropWhile_sublist (l := (cs.dropWhile (· ≠ '(')).tail.reverse) (· ≠ ')'))
      have hinner := (List.tail_sublist _).trans (List.dropWhile_sublist (l := cs) (· ≠ '('))
      have hle := hback.length_le
      rw [List.length_reverse] at hle ⊢
      exact hle.trans hinner.length_le
    · cases h
  · cases h

theorem natAbs_effect_le {method : String} {receiver : Bool} {d : Int}
    (h : effect? method receiver = some d) : d.natAbs ≤ 2 * method.length + 2 := by
  unfold effect? at h
  split at h
  · cases h
    exact Nat.zero_le _
  · cases h
  · next ps r hshape =>
    have hps := slotsFrom_le .fresh ps
    have hlength := length_parameters hshape
    have hr : resultSlots r ≤ 2 := by
      unfold resultSlots
      split
      · decide
      · split <;> decide
    rw [String.length_toList] at hlength
    cases h
    rw [parameterSlots]
    split <;> omega

end Invocation

theorem Opcode.natAbs_effect_le (op : Opcode) : op.effect.natAbs ≤ 3 := by
  cases op <;> simp [effect, effect?]

/-- An operation is written after a tab, and its operand after it. -/
theorem Line.length_text_instruction (op : Opcode) (operand : Option String) :
    (operand.getD "").length + 1 ≤ (instruction op operand).text.length := by
  have htab : "\t".length = 1 := rfl
  have hempty : "".length = 0 := rfl
  cases operand <;> simp only [text, String.length_append, Option.getD] <;> omega

theorem Line.length_text_branch (op : Opcode) (target : Label) :
    1 ≤ (branch op target).text.length := by
  have htab : "\t".length = 1 := rfl
  simp only [text, String.length_append]
  omega

namespace Listing

/-- The number of characters of the text of a listing. -/
def size : Listing → Nat
  | [] => 0
  | line :: ls => line.text.length + 1 + size ls

theorem size_append (ls ms : Listing) : size (ls ++ ms) = size ls + size ms := by
  induction ls with
  | nil => exact (Nat.zero_add _).symm
  | cons line ls ih =>
    rw [List.cons_append, size, size, ih]
    omega

theorem length_render (ls : Listing) : (render ls).length = size ls := by
  induction ls with
  | nil => rfl
  | cons line ls ih =>
    rw [render] at ih ⊢
    rw [List.map_cons, String.join_cons, String.length_append, ih, String.length_append, size]
    rfl

end Listing

namespace Emission

/-- The sum of all changes of depth, up or down. -/
def travel : List Emission → Nat
  | [] => 0
  | e :: es => e.effect.natAbs + travel es

theorem travel_append (es fs : List Emission) : travel (es ++ fs) = travel es + travel fs := by
  induction es with
  | nil => exact (Nat.zero_add _).symm
  | cons e es ih => rw [List.cons_append, travel, travel, ih, Nat.add_assoc]

end Emission

namespace Assembler

/-- An emission writes enough to make up for its change of depth and for the label it places. -/
theorem travel_le_size_written (a : Assembler) (e : Emission) :
    e.effect.natAbs + (definedLabels (a.written e)).length ≤ 2 * size (a.written e) := by
  cases e with
  | instruction op operand =>
    have hop := op.natAbs_effect_le
    have htext := Line.length_text_instruction op operand
    change op.effect.natAbs + 0 ≤ 2 * ((Line.instruction op operand).text.length + 1 + 0)
    omega
  | invoke op method =>
    have htext := Line.length_text_instruction op (some method)
    change ((Invocation.effect? method (hasReceiver op)).getD 0).natAbs + 0 ≤
      2 * ((Line.instruction op (some method)).text.length + 1 + 0)
    cases heffect : Invocation.effect? method (hasReceiver op) with
    | none => exact Nat.zero_le _
    | some d =>
      have hd := Invocation.natAbs_effect_le heffect
      simp only [Option.getD] at htext ⊢
      omega
  | branch op target =>
    have hop := op.natAbs_effect_le
    have htext := Line.length_text_branch op target
    change op.effect.natAbs + 0 ≤ 2 * ((Line.branch op target).text.length + 1 + 0)
    omega
  | label l =>
    change 0 + 1 ≤ 2 * ((Line.label l).text.length + 1 + 0)
    omega
  | _ => exact Nat.zero_le _

theorem travel_le_size_writtenAll (a : Assembler) (es : List Emission) :
    Emission.travel es + (definedLabels (a.writtenAll es)).length ≤ 2 * size (a.writtenAll es) := by
  induction es generalizing a with
  | nil => exact Nat.zero_le _
  | cons e es ih =>
    have he := a.travel_le_size_written e
    have hes := ih (a.emit e)
    rw [writtenAll_cons, definedLabels_append, size_append, List.length_append, Emission.travel]
    omega

/-- The depth and its peak are at most `n` away from zero. -/
structure Bounded (a : Assembler) (n : Nat) : Prop where
  depth : a.depth.natAbs ≤ n
  peak : a.peak ≤ n

theorem Bounded.adjust {a : Assembler} {n : Nat} (h : a.Bounded n) (d : Int) :
    (a.adjust d).Bounded (n + d.natAbs) := by
  obtain ⟨hdepth, hpeak⟩ := h
  constructor
  · change (a.depth + d).natAbs ≤ n + d.natAbs
    omega
  · change max a.peak (a.depth + d).toNat ≤ n + d.natAbs
    omega

theorem Bounded.emit {a : Assembler} {n : Nat} (h : a.Bounded n) (e : Emission) :
    (a.emit e).Bounded (n + e.effect.natAbs) := by
  cases e with
  | instruction op operand => exact ⟨(h.adjust op.effect).depth, (h.adjust op.effect).peak⟩
  | invoke op method => exact ⟨(h.adjust _).depth, (h.adjust _).peak⟩
  | branch op target => exact ⟨(h.adjust op.effect).depth, (h.adjust op.effect).peak⟩
  | openMethod header => exact ⟨Nat.zero_le _, Nat.zero_le _⟩
  | _ => exact ⟨h.depth, h.peak⟩

theorem Bounded.emitAll {a : Assembler} {n : Nat} (h : a.Bounded n) (es : List Emission) :
    (a.emitAll es).Bounded (n + Emission.travel es) := by
  induction es generalizing a n with
  | nil => exact h
  | cons e es ih =>
    have hes := ih (h.emit e)
    rwa [Nat.add_assoc] at hes

/-- Label numbers are words of 32 bits, and depths and peaks are signed ones. -/
structure InRange (a : Assembler) : Prop where
  labels : a.labels.next < UInt32.size
  depth : Int32.minValue.toInt ≤ a.depth ∧ a.depth ≤ Int32.maxValue.toInt
  peak : a.peak ≤ Int32.maxValue.toInt

/-- The counters are in range at every point of a run, if it hands out few labels and the depth
travels little. -/
theorem inRange_emitAll {front es : List Emission} (hfront : front <+: es)
    (hlabels : es.count .newLabel < UInt32.size)
    (htravel : Emission.travel es ≤ Int32.maxValue.toInt) : (emitAll {} front).InRange := by
  have hlow : Int32.minValue.toInt = -Int32.maxValue.toInt - 1 := by decide
  have hnext := next_emitAll {} front
  have hbounded : (emitAll {} front).Bounded (0 + Emission.travel front) :=
    Bounded.emitAll ⟨Nat.le_refl 0, Nat.le_refl 0⟩ front
  have hcount := hfront.sublist.count_le .newLabel
  obtain ⟨back, rfl⟩ := hfront
  rw [Emission.travel_append] at htravel
  obtain ⟨hdepth, hpeak⟩ := hbounded
  refine ⟨?_, ⟨?_, ?_⟩, ?_⟩
  · rw [hnext]
    change 0 + _ < _
    omega
  · omega
  · omega
  · omega

end Assembler

/-- Along the making of a class whose text is not too long, the counters are in range. -/
theorem Program.inRange_lower {p : Program} {options : Options} {u : ClassUnit}
    (h : p.unit options = .ok u) (hsize : 2 * u.text.length ≤ Int32.maxValue.toInt)
    {front : List Emission} (hfront : front <+: (p.lower options).emissions) :
    (Assembler.emitAll {} front).InRange := by
  have hwords : Int32.maxValue.toInt < UInt32.size := by decide
  obtain ⟨hr, hl, -⟩ := unit_eq_ok h
  have htravel := Assembler.travel_le_size_writtenAll {} (p.lower options).emissions
  rw [← hl] at htravel
  rw [ClassUnit.text, length_render] at hsize
  have hlabels : (p.lower options).emissions.count .newLabel =
      (definedLabels u.listing).length := by
    have hend := label_afterAll ⟨0, 0⟩ p.body
    rw [count_newLabel_lower hr, hend, (definedLabels_perm h).length_eq, List.length_map,
      List.length_range, visits, Nat.zero_add]
  exact Assembler.inRange_emitAll hfront (by omega) (by omega)

end StackLowering
