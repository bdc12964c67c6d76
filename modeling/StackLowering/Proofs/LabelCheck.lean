import Mathlib.Data.List.Induction
import Mathlib.Data.List.Nodup
import StackLowering.Assembly.Listing

/-!
The check of labels. The tally that one pass over a listing makes has each defined label once, with
the number of its definitions. Two further passes collect the labels that were counted more than
once and the targets that were not counted, so what is sorted in the end is, for any listing, the
set of the labels that make it unfit.
-/
namespace StackLowering

open Listing

namespace Tally

/-- The tally of some labels: each of them once, with the number of times that it is there. -/
structure Counts (t : Tally) (ls : List Label) : Prop where
  distinct : (t.map Prod.fst).Nodup
  mem_iff : ∀ l n, (l, n) ∈ t ↔ 0 < n ∧ ls.count l = n

theorem mem_fst_increment {l m : Label} {t : Tally} :
    m ∈ (t.increment l).map Prod.fst ↔ m = l ∨ m ∈ t.map Prod.fst := by
  induction t with
  | nil => simp [increment]
  | cons e t ih =>
    unfold increment
    split
    case isTrue h => simp [← h]
    case isFalse => simp only [List.map_cons, List.mem_cons, ih]; tauto

theorem nodup_fst_increment {l : Label} {t : Tally} (h : (t.map Prod.fst).Nodup) :
    ((t.increment l).map Prod.fst).Nodup := by
  induction t with
  | nil => exact List.nodup_singleton l
  | cons e t ih =>
    rw [List.map_cons, List.nodup_cons] at h
    unfold increment
    split
    case isTrue => exact List.nodup_cons.mpr h
    case isFalse hne =>
      refine List.nodup_cons.mpr ⟨fun hmem => ?_, ih h.2⟩
      exact (mem_fst_increment.mp hmem).elim hne h.1

theorem mem_increment_of_ne {l m : Label} (h : m ≠ l) {n : Nat} {t : Tally} :
    (m, n) ∈ t.increment l ↔ (m, n) ∈ t := by
  induction t with
  | nil => simp [increment, h]
  | cons e t ih =>
    unfold increment
    split
    case isTrue he =>
      have hne : m ≠ e.1 := he ▸ h
      simp [Prod.ext_iff, hne]
    case isFalse => rw [List.mem_cons, List.mem_cons, ih]

theorem mem_increment_self {l : Label} {n : Nat} {t : Tally} (h : (t.map Prod.fst).Nodup) :
    (l, n) ∈ t.increment l ↔ (n = 1 ∧ l ∉ t.map Prod.fst) ∨ ∃ k, (l, k) ∈ t ∧ n = k + 1 := by
  induction t with
  | nil => simp [increment]
  | cons e t ih =>
    obtain ⟨m, k⟩ := e
    rw [List.map_cons, List.nodup_cons] at h
    unfold increment
    split
    case isTrue he =>
      subst he
      have hout (j : Nat) : (m, j) ∉ t := fun hj => h.1 (List.mem_map.mpr ⟨(m, j), hj, rfl⟩)
      simp [hout]
    case isFalse hne =>
      have hne' : l ≠ m := Ne.symm hne
      simp [ih h.2, hne']

namespace Counts

variable {t : Tally} {ls : List Label}

theorem mem_fst_iff (h : t.Counts ls) {l : Label} : l ∈ t.map Prod.fst ↔ l ∈ ls := by
  rw [List.mem_map, ← List.count_pos_iff]
  constructor
  · rintro ⟨⟨m, n⟩, hmem, rfl⟩
    obtain ⟨hpos, hcount⟩ := (h.mem_iff m n).mp hmem
    exact hcount ▸ hpos
  · intro hpos
    exact ⟨(l, ls.count l), (h.mem_iff _ _).mpr ⟨hpos, rfl⟩, rfl⟩

/-- One more definition is counted. -/
theorem increment (h : t.Counts ls) (l : Label) : (t.increment l).Counts (ls ++ [l]) := by
  refine ⟨nodup_fst_increment h.distinct, fun m n => ?_⟩
  rw [List.count_append, List.count_singleton]
  by_cases hm : m = l
  · subst hm
    rw [mem_increment_self h.distinct, h.mem_fst_iff, ← List.count_pos_iff, beq_self_eq_true,
      if_pos rfl]
    simp only [h.mem_iff]
    constructor
    · rintro (⟨rfl, hzero⟩ | ⟨k, ⟨hpos, hcount⟩, rfl⟩) <;> omega
    · rintro ⟨-, hn⟩
      rcases Nat.eq_zero_or_pos (ls.count m) with hzero | hpos
      · exact .inl ⟨by omega, by omega⟩
      · exact .inr ⟨_, ⟨hpos, rfl⟩, hn.symm⟩
  · rw [mem_increment_of_ne hm, h.mem_iff, if_neg (by simpa using Ne.symm hm), Nat.add_zero]

end Counts

end Tally

namespace Listing

/-- The tally of a listing counts the labels that its lines define. -/
theorem counts_tally (ls : Listing) : (tally ls).Counts (definedLabels ls) := by
  induction ls using List.reverseRecOn with
  | nil => exact ⟨List.nodup_nil, fun l n => by simp [tally, definedLabels]; omega⟩
  | append_singleton ls line ih =>
    rw [tally, List.foldl_append, definedLabels_append]
    cases line with
    | label l => exact ih.increment l
    | _ =>
      change (tally ls).Counts (definedLabels ls ++ [])
      rwa [List.append_nil]

/-! A pass puts the labels of some items into a set. -/

section Pass

variable {α : Type} (p : α → Prop) [DecidablePred p] (f : α → Label)

theorem mem_pass {xs : List α} {bad : List Label} {l : Label} :
    l ∈ xs.foldl (fun bad x => if p x then bad.insert (f x) else bad) bad ↔
      l ∈ bad ∨ ∃ x ∈ xs, p x ∧ f x = l := by
  induction xs generalizing bad with
  | nil => simp
  | cons x xs ih =>
    rw [List.foldl_cons, ih]
    by_cases hx : p x
    · rw [if_pos hx, List.mem_insert_iff]
      grind
    · rw [if_neg hx]
      grind

theorem nodup_pass {xs : List α} {bad : List Label} (h : bad.Nodup) :
    (xs.foldl (fun bad x => if p x then bad.insert (f x) else bad) bad).Nodup := by
  induction xs generalizing bad with
  | nil => exact h
  | cons x xs ih =>
    rw [List.foldl_cons]
    by_cases hx : p x
    · rw [if_pos hx]
      exact ih h.insert
    · rw [if_neg hx]
      exact ih h

end Pass

/-- The first pass collects the labels that several lines define. -/
theorem mem_repeated_iff {ls : Listing} {l : Label} :
    l ∈ repeated (tally ls) ↔ 1 < (definedLabels ls).count l := by
  have hcounts := counts_tally ls
  rw [repeated, mem_pass]
  constructor
  · rintro (hnil | ⟨⟨m, n⟩, hmem, hlt, rfl⟩)
    · exact absurd hnil List.not_mem_nil
    · exact ((hcounts.mem_iff m n).mp hmem).2 ▸ hlt
  · intro hlt
    exact .inr ⟨(l, _), (hcounts.mem_iff _ _).mpr ⟨by omega, rfl⟩, hlt, rfl⟩

theorem not_hasLabel_tally_iff {ls : Listing} {l : Label} :
    (!(tally ls).hasLabel l) = true ↔ l ∉ definedLabels ls := by
  rw [← (counts_tally ls).mem_fst_iff, Bool.not_eq_true', ← Bool.not_eq_true, Tally.hasLabel]
  simp [List.any_eq_true, List.mem_map]

/-- The second pass adds the targets that no line defines. -/
theorem mem_addUndefined_iff {ls : Listing} {l : Label} :
    l ∈ addUndefined (tally ls) (repeated (tally ls)) (referencedLabels ls) ↔
      1 < (definedLabels ls).count l ∨ (l ∈ referencedLabels ls ∧ l ∉ definedLabels ls) := by
  rw [addUndefined, mem_pass, mem_repeated_iff]
  simp only [not_hasLabel_tally_iff]
  constructor
  · rintro (hlt | ⟨m, hmem, hm, rfl⟩)
    · exact .inl hlt
    · exact .inr ⟨hmem, hm⟩
  · rintro (hlt | ⟨hmem, hl⟩)
    · exact .inl hlt
    · exact .inr ⟨l, hmem, hl, rfl⟩

theorem mem_violations_iff {ls : Listing} {l : Label} :
    l ∈ violations ls ↔
      1 < (definedLabels ls).count l ∨ (l ∈ referencedLabels ls ∧ l ∉ definedLabels ls) := by
  rw [violations, List.mem_mergeSort, mem_addUndefined_iff]

/-- A set without repetitions that is sorted grows strictly. -/
theorem pairwise_violations (ls : Listing) : (violations ls).Pairwise (·.id < ·.id) := by
  have hset : (addUndefined (tally ls) (repeated (tally ls)) (referencedLabels ls)).Nodup :=
    nodup_pass _ _ (nodup_pass _ _ List.nodup_nil)
  have hnodup : (violations ls).Nodup := (List.mergeSort_perm _ _).nodup_iff.mpr hset
  have hsorted : (violations ls).Pairwise fun a b => decide (a.id ≤ b.id) = true :=
    List.pairwise_mergeSort (by simp; omega) (by simp; omega) _
  refine (hsorted.and hnodup).imp fun {a b} h => ?_
  have hle := of_decide_eq_true h.1
  have hne : a.id ≠ b.id := fun he => h.2 (congrArg Label.mk he)
  omega

/-- A label is defined once by each of its lines. -/
theorem count_definedLabels_eq (ls : Listing) (l : Label) :
    (definedLabels ls).count l = List.count (.label l) ls := by
  induction ls with
  | nil => rfl
  | cons line ls ih =>
    rw [definedLabels_cons, List.count_append, ih, List.count_cons]
    cases line with
    | label m => simp [Line.defined?, List.count_singleton, Nat.add_comm]
    | _ => simp [Line.defined?]

theorem mem_referencedLabels_iff {ls : Listing} {l : Label} :
    l ∈ referencedLabels ls ↔ ∃ op, .branch op l ∈ ls := by
  unfold referencedLabels
  rw [List.mem_filterMap]
  constructor
  · rintro ⟨line, hline, htarget⟩
    cases line with
    | branch op m =>
      cases htarget
      exact ⟨op, hline⟩
    | _ => cases htarget
  · rintro ⟨op, hbranch⟩
    exact ⟨.branch op l, hbranch, rfl⟩

/-- The violations of a listing grow strictly by number, and they are the labels that two or more
lines define and the labels that a branch leads to and no line defines. -/
theorem violations_exact (ls : Listing) :
    (violations ls).Pairwise (·.id < ·.id) ∧
      ∀ l, l ∈ violations ls ↔
        2 ≤ List.count (.label l) ls ∨ ((∃ op, .branch op l ∈ ls) ∧ .label l ∉ ls) := by
  refine ⟨pairwise_violations ls, ?_⟩
  intro l
  have hdefined : l ∈ definedLabels ls ↔ .label l ∈ ls := by
    rw [← List.count_pos_iff, count_definedLabels_eq, List.count_pos_iff]
  rw [mem_violations_iff, count_definedLabels_eq, mem_referencedLabels_iff, hdefined]
  exact Iff.rfl

end Listing

end StackLowering
