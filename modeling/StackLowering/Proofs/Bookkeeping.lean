import Mathlib.Data.List.DropRight
import Mathlib.Data.List.Infix
import Mathlib.Data.List.Nodup
import StackLowering.Proofs.FaultFree
import StackLowering.Proofs.LabelCheck

/-!
The books that are kept while a listing is made. Whatever emissions come, and in whatever order, the
labels that are handed out are numbered from zero on, the labels that count as placed are those that
the listing defines, and the depth and its peak are those that the effects of the emissions add up
to since a method was opened. Only a fault is excluded, and a fault ends a run.
-/
namespace StackLowering

open Listing

/-! What emissions do to the depth. -/

namespace Emission

/-- The change of depth at an emission. An invocation counts by the type of its method; an operation
that invokes changes nothing where it is emitted as a plain instruction. -/
def effect : Emission → Int
  | .instruction op _ => op.effect
  | .invoke op method => (Invocation.effect? method (Assembler.hasReceiver op)).getD 0
  | .branch op _ => op.effect
  | _ => 0

def opensMethod : Emission → Bool
  | .openMethod _ => true
  | _ => false

/-- The label that an emission jumps to. -/
def target? : Emission → Option Label
  | .branch _ l => some l
  | _ => none

/-- The emissions since a method was opened last, or since the start. -/
def sinceOpening (es : List Emission) : List Emission := es.rtakeWhile (!·.opensMethod)

/-- The sum of the effects of emissions. -/
def total (es : List Emission) : Int := (es.map effect).sum

/-- The greatest of zero and the sums of effects over all beginnings of some emissions. -/
def greatestTotal (es : List Emission) : Nat :=
  (es.inits.map fun front => (total front).toNat).foldl max 0

theorem total_concat (es : List Emission) (e : Emission) :
    total (es ++ [e]) = total es + e.effect := by
  simp [total]

theorem greatestTotal_concat (es : List Emission) (e : Emission) :
    greatestTotal (es ++ [e]) = max (greatestTotal es) (total es + e.effect).toNat := by
  simp [greatestTotal, List.inits_append, total_concat]

theorem total_le_greatestTotal (es : List Emission) : total es ≤ greatestTotal es := by
  induction es using List.reverseRecOn with
  | nil => exact Int.le_refl 0
  | append_singleton es e _ =>
    rw [total_concat, greatestTotal_concat]
    omega

end Emission

namespace Assembler

theorem depth_emit (a : Assembler) (e : Emission) :
    (a.emit e).depth = if e.opensMethod then 0 else a.depth + e.effect := by
  cases e with
  | openMethod header => rfl
  | instruction op operand => rfl
  | invoke op method => rfl
  | branch op target => rfl
  | _ => exact (Int.add_zero a.depth).symm

/-- An emission raises the peak to the depth that it leads to. -/
theorem peak_emit_of_le {a : Assembler} (h : a.depth ≤ a.peak) (e : Emission) :
    (a.emit e).peak = if e.opensMethod then 0 else max a.peak (a.depth + e.effect).toNat := by
  have hstill : a.peak = max a.peak (a.depth + 0).toNat := by omega
  cases e with
  | openMethod header => rfl
  | instruction op operand => rfl
  | invoke op method => rfl
  | branch op target => rfl
  | _ => exact hstill

/-- The depth and its peak are those of the effects since a method was opened. -/
theorem depth_and_peak_emitAll (es : List Emission) :
    (emitAll {} es).depth = Emission.total (Emission.sinceOpening es) ∧
      (emitAll {} es).peak = Emission.greatestTotal (Emission.sinceOpening es) := by
  induction es using List.reverseRecOn with
  | nil => exact ⟨rfl, rfl⟩
  | append_singleton es e ih =>
    obtain ⟨hd, hp⟩ := ih
    have hle : (emitAll {} es).depth ≤ (emitAll {} es).peak := by
      rw [hd, hp]
      exact Emission.total_le_greatestTotal _
    rw [emitAll_append, emitAll_cons, emitAll_nil, depth_emit, peak_emit_of_le hle, hd, hp]
    by_cases ho : e.opensMethod = true
    · have hnone : Emission.sinceOpening (es ++ [e]) = [] :=
        List.rtakeWhile_concat_neg _ _ _ (by simp [ho])
      rw [hnone, if_pos ho, if_pos ho]
      exact ⟨rfl, rfl⟩
    · have hmore : Emission.sinceOpening (es ++ [e]) = Emission.sinceOpening es ++ [e] :=
        List.rtakeWhile_concat_pos _ _ _ (by simp [ho])
      rw [hmore, if_neg ho, if_neg ho, Emission.total_concat, Emission.greatestTotal_concat]
      exact ⟨rfl, rfl⟩

/-! Labels. -/

/-- The labels that emissions hand out, in order. -/
def issued (a : Assembler) : List Emission → List Label
  | [] => []
  | .newLabel :: es => a.labels.allocate.1 :: (a.emit .newLabel).issued es
  | e :: es => (a.emit e).issued es

@[simp] theorem next_emit (a : Assembler) (e : Emission) :
    (a.emit e).labels.next = a.labels.next + if e = .newLabel then 1 else 0 := by
  cases e <;> simp [emit, push, adjust, resetDepth]

theorem next_emitAll (a : Assembler) (es : List Emission) :
    (a.emitAll es).labels.next = a.labels.next + es.count .newLabel := by
  induction es generalizing a with
  | nil => rfl
  | cons e es ih =>
    rw [emitAll_cons, ih, next_emit]
    by_cases he : e = .newLabel
    · rw [if_pos he, he, List.count_cons_self]
      omega
    · rw [if_neg he, List.count_cons_of_ne he]
      omega

/-- Labels are handed out with consecutive numbers. -/
theorem issued_eq (a : Assembler) (es : List Emission) :
    a.issued es = (List.range' a.labels.next (es.count .newLabel)).map Label.mk := by
  induction es generalizing a with
  | nil => rfl
  | cons e es ih =>
    by_cases he : e = .newLabel
    · subst he
      rw [issued, ih, next_emit, if_pos rfl, List.count_cons_self, List.range'_succ, List.map_cons]
      rfl
    · have hskip : a.issued (e :: es) = (a.emit e).issued es := by
        cases e with
        | newLabel => contradiction
        | _ => rfl
      rw [hskip, ih, next_emit, if_neg he, List.count_cons_of_ne he, Nat.add_zero]

/-- What emissions write branches to their targets, in their order. -/
theorem referencedLabels_writtenAll (a : Assembler) (es : List Emission) :
    referencedLabels (a.writtenAll es) = es.filterMap Emission.target? := by
  induction es generalizing a with
  | nil => rfl
  | cons e es ih =>
    rw [writtenAll_cons, referencedLabels_append, ih]
    cases e <;> rfl

end Assembler

namespace Workbench

theorem assembler_run_emit {w v : Workbench} {es : List Emission}
    (h : w.run (es.map .emit) = (v, none)) : v.assembler = w.assembler.emitAll es := by
  have hemissions : (es.map Command.emit).filterMap Command.emission? = es := by
    rw [List.filterMap_map]
    exact List.filterMap_some
  have hnone : (w.run (es.map .emit)).2 = none := by rw [h]
  have hrun := assembler_run hnone
  rwa [h, hemissions] at hrun

/-- Emissions that are no faults define no label twice. -/
theorem nodup_definedLabels_run {w v : Workbench} {es : List Emission}
    (h : w.run (es.map .emit) = (v, none)) (hr : w.assembler.Recorded)
    (hn : (definedLabels w.assembler.listing).Nodup) :
    (definedLabels v.assembler.listing).Nodup := by
  induction es generalizing w with
  | nil =>
    cases h
    exact hn
  | cons e es ih =>
    rw [List.map_cons, run] at h
    cases hf : w.fault? (.emit e) with
    | some f => simp [hf] at h
    | none =>
      rw [hf] at h
      have hpermitted : e.Permitted w.assembler := (Assembler.fault?_eq_none_iff hr).mp hf
      refine ih h (hr.emit e) ?_
      change (definedLabels (w.assembler.emit e).listing).Nodup
      rw [Assembler.listing_emit, definedLabels_append, Assembler.definedLabels_written]
      cases e with
      | label l =>
        change (definedLabels w.assembler.listing ++ [l]).Nodup
        rw [← List.concat_eq_append]
        exact List.Nodup.concat hpermitted hn
      | _ =>
        change (definedLabels w.assembler.listing ++ []).Nodup
        rwa [List.append_nil]

/-- The end of a method writes the peak that was reached before it, or the limit that it is given
if that is greater. -/
theorem listing_closeMethod {w : Workbench} {front back : List Emission} {locals stack : UInt32}
    (h : run {} ((front ++ .closeMethod locals stack :: back).map .emit) = (w, none)) :
    ∃ v after, run {} (front.map .emit) = (v, none) ∧
      w.assembler.listing = v.assembler.listing ++
        [.blank, .directive s!".limit locals {locals}",
          .directive s!".limit stack {max stack.toNat
            (Emission.greatestTotal (Emission.sinceOpening front))}",
          .directive ".end method"] ++ after := by
  have hnone : (run {} (front.map .emit ++
      .emit (.closeMethod locals stack) :: back.map .emit)).2 = none := by
    rw [← List.map_cons, ← List.map_append, h]
  obtain ⟨v, hfront, -⟩ := exists_run_of_append hnone
  have hv := assembler_run_emit hfront
  obtain ⟨-, hpeak⟩ := Assembler.depth_and_peak_emitAll front
  refine ⟨v, (v.assembler.emit (.closeMethod locals stack)).writtenAll back, hfront, ?_⟩
  rw [assembler_run_emit h, Assembler.emitAll_append, ← hpeak]
  change ((Assembler.emitAll {} front).emitAll _).listing = _
  rw [Assembler.listing_emitAll, Assembler.writtenAll_cons, ← List.append_assoc, hv]
  rfl

/-- After any emissions that are no faults, on an empty workbench: labels were handed out as 0, 1, 2
and so on; the listing has the labels and the branches of the emissions, defines no label twice, and
what it defines is what counts as placed; its violations are the targets of branches that it does
not define, by ascending number; the depth is the sum of the effects since a method was opened, and
the peak is the greatest of zero and all sums on the way there, which the end of a method writes
down unless it is told to write more. -/
theorem bookkeeping_exact {es : List Emission} {w : Workbench}
    (h : run {} (es.map .emit) = (w, none)) :
    Assembler.issued {} es = (List.range (es.count .newLabel)).map Label.mk ∧
      (definedLabels w.assembler.listing = es.filterMap Emission.placed? ∧
        referencedLabels w.assembler.listing = es.filterMap Emission.target?) ∧
      ((definedLabels w.assembler.listing).Nodup ∧
        ∀ l, l ∈ definedLabels w.assembler.listing ↔ w.assembler.labels.isPlaced l = true) ∧
      ((violations w.assembler.listing).Pairwise (·.id < ·.id) ∧
        ∀ l, l ∈ violations w.assembler.listing ↔
          l ∈ referencedLabels w.assembler.listing ∧ l ∉ definedLabels w.assembler.listing) ∧
      w.assembler.depth = Emission.total (Emission.sinceOpening es) ∧
      w.assembler.peak = Emission.greatestTotal (Emission.sinceOpening es) ∧
      ∀ front locals stack back, es = front ++ .closeMethod locals stack :: back →
        ∃ v after, run {} (front.map .emit) = (v, none) ∧
          w.assembler.listing = v.assembler.listing ++
            [.blank, .directive s!".limit locals {locals}",
              .directive s!".limit stack {max stack.toNat
                (Emission.greatestTotal (Emission.sinceOpening front))}",
              .directive ".end method"] ++ after := by
  have hw : w.assembler = Assembler.emitAll {} es := assembler_run_emit h
  have hempty : (({} : Workbench).assembler).Recorded := fun l => Iff.rfl
  have hrecorded : w.assembler.Recorded := by
    rw [hw]
    exact Assembler.Recorded.emitAll hempty es
  have hnodup : (definedLabels w.assembler.listing).Nodup :=
    nodup_definedLabels_run h hempty List.nodup_nil
  have hlisting : w.assembler.listing = Assembler.writtenAll {} es := by
    rw [hw, Assembler.listing_emitAll]
    rfl
  obtain ⟨hdepth, hpeak⟩ := Assembler.depth_and_peak_emitAll es
  refine ⟨?_, ?_, ⟨hnodup, ?_⟩, ⟨pairwise_violations _, ?_⟩, ?_, ?_, ?_⟩
  · rw [Assembler.issued_eq, List.range_eq_range']
  · rw [hlisting]
    exact ⟨Assembler.definedLabels_writtenAll {} es, Assembler.referencedLabels_writtenAll {} es⟩
  · intro l
    rw [LabelSupply.isPlaced_iff, hrecorded l]
  · intro l
    have hcount := List.nodup_iff_count_le_one.mp hnodup l
    rw [mem_violations_iff]
    constructor
    · intro hl
      exact hl.resolve_left (by omega)
    · exact Or.inr
  · rw [hw, hdepth]
  · rw [hw, hpeak]
  · intro front locals stack back hes
    subst hes
    exact listing_closeMethod h

/-- Emissions in no good order: a label that was never handed out, branches that lead nowhere, a
value before the method, and an invocation that takes more than there is. -/
def scrap : List Emission :=
  [.newLabel, .label ⟨7⟩, .constant "0", .openMethod "static f()V", .constant "1", .constant "2",
    .instruction .invokeStatic (some "g(JJ)V"), .invoke .invokeStatic "g(JJ)V",
    .branch (.ifZero .eq) ⟨9⟩, .newLabel, .jump ⟨3⟩, .closeMethod 1 1]

theorem scrap_bookkeeping :
    ∃ w, run {} (scrap.map .emit) = (w, none) ∧ Assembler.issued {} scrap = [⟨0⟩, ⟨1⟩] ∧
      (∀ l, l ∈ violations w.assembler.listing ↔ l = ⟨9⟩ ∨ l = ⟨3⟩) ∧
      w.assembler.depth = -3 ∧ w.assembler.peak = 2 ∧
      .directive ".limit stack 2" ∈ w.assembler.listing := by
  obtain ⟨w, hw⟩ : ∃ w, run {} (scrap.map .emit) = (w, none) := ⟨_, rfl⟩
  obtain ⟨hissued, ⟨hdefined, hreferenced⟩, -, ⟨-, hviolations⟩, hdepth, hpeak, hclose⟩ :=
    bookkeeping_exact hw
  have hsplit : scrap = scrap.take 11 ++ .closeMethod 1 1 :: [] := rfl
  obtain ⟨v, after, -, hlisting⟩ := hclose _ _ _ _ hsplit
  refine ⟨w, hw, hissued, ?_, hdepth, hpeak, ?_⟩
  · intro l
    have hd : definedLabels w.assembler.listing = [⟨7⟩] := hdefined
    have hr : referencedLabels w.assembler.listing = [⟨9⟩, ⟨3⟩] := hreferenced
    rw [hviolations, hd, hr]
    simp only [List.mem_cons, List.not_mem_nil, or_false]
    constructor
    · exact And.left
    · intro hl
      refine ⟨hl, ?_⟩
      rcases hl with rfl | rfl <;> decide
  · have hlimit : max (1 : UInt32).toNat
        (Emission.greatestTotal (Emission.sinceOpening (scrap.take 11))) = 2 := rfl
    rw [hlisting, hlimit]
    apply List.mem_append_left
    apply List.mem_append_right
    exact List.mem_cons_of_mem _ (List.mem_cons_of_mem _ List.mem_cons_self)

end Workbench

end StackLowering
