import Mathlib.Tactic.Common
import StackLowering.Assembly.Listing

/-!
Control flow of listings. Control passes to the line below or, at a branch, to a line that defines
the branch's label. An abstract state that each line changes is carried along all paths at once: if
going through the lines in the order of the text finds one and the same state at every label and
after every branch, then every path meets at each line the state found there in the order of the
text, however often it went around a loop.
-/
namespace StackLowering

/-- Whether control can pass to the line below. -/
def Line.fallsThrough : Line → Bool
  | branch .goto _ => false
  | instruction .ret _ => false
  | _ => true

namespace Listing

/-- Control can pass from one position to another. -/
inductive Follows (ls : Listing) : Nat → Nat → Prop
  | below {i : Nat} {line : Line} (h : ls[i]? = some line) (hf : line.fallsThrough = true) :
      Follows ls i (i + 1)
  | jump {i j : Nat} {op : Opcode} {l : Label} (h : ls[i]? = some (.branch op l))
      (hl : ls[j]? = some (.label l)) : Follows ls i j

variable {S : Type} {effect : Line → S → Option S} {rest : S}

/-- The positions that the paths from a start reach, each with the state before its line. A path
ends at a line that has no effect on its state. -/
inductive Reaches (effect : Line → S → Option S) (ls : Listing) (start : Nat) (init : S) :
    Nat → S → Prop
  | start : Reaches effect ls start init start init
  | step {i j : Nat} {s t : S} {line : Line} (h : Reaches effect ls start init i s)
      (hl : ls[i]? = some line) (he : effect line s = some t) (hf : Follows ls i j) :
      Reaches effect ls start init j t

/-- In the order of the text, lines lead from one state to another, with the state `rest` at every
label and after every branch. -/
def Aligned (effect : Line → S → Option S) (rest : S) : S → List Line → S → Prop
  | s, [], t => s = t
  | s, line :: lines, t =>
    ∃ u, effect line s = some u ∧ (line.defined?.isSome → s = rest) ∧
      (line.target?.isSome → u = rest) ∧ Aligned effect rest u lines t

namespace Aligned

variable {s t u : S} {ls ms : List Line} {line : Line}

theorem nil : Aligned effect rest s [] s := rfl

theorem append_iff :
    Aligned effect rest s (ls ++ ms) u ↔
      ∃ t, Aligned effect rest s ls t ∧ Aligned effect rest t ms u := by
  induction ls generalizing s with
  | nil => exact ⟨fun h => ⟨s, rfl, h⟩, fun ⟨t, ht, h⟩ => ht ▸ h⟩
  | cons line ls ih =>
    constructor
    · rintro ⟨v, he, hd, ht, h⟩
      obtain ⟨t, hl, hm⟩ := ih.mp h
      exact ⟨t, ⟨v, he, hd, ht, hl⟩, hm⟩
    · rintro ⟨t, ⟨v, he, hd, ht, hl⟩, hm⟩
      exact ⟨v, he, hd, ht, ih.mpr ⟨t, hl, hm⟩⟩

theorem append (h : Aligned effect rest s ls t) (h' : Aligned effect rest t ms u) :
    Aligned effect rest s (ls ++ ms) u := append_iff.mpr ⟨t, h, h'⟩

/-- A line that is neither a label nor a branch. -/
theorem single (h : effect line s = some t) (hd : line.defined? = none) (ht : line.target? = none) :
    Aligned effect rest s [line] t :=
  ⟨t, h, fun hs => by simp [hd] at hs, fun hs => by simp [ht] at hs, rfl⟩

theorem cons (h : effect line s = some t) (hd : line.defined? = none) (ht : line.target? = none)
    (hl : Aligned effect rest t ls u) : Aligned effect rest s (line :: ls) u :=
  append (single h hd ht) hl

theorem label {l : Label} (h : effect (.label l) rest = some rest)
    (hl : Aligned effect rest rest ls u) : Aligned effect rest rest (.label l :: ls) u :=
  ⟨rest, h, fun _ => rfl, fun _ => rfl, hl⟩

theorem branch {op : Opcode} {l : Label} (h : effect (.branch op l) s = some rest)
    (hl : Aligned effect rest rest ls u) : Aligned effect rest s (.branch op l :: ls) u :=
  ⟨rest, h, fun hs => by simp [Line.defined?] at hs, fun _ => rfl, hl⟩

/-- Pieces that each keep a state. -/
theorem flatMap {α : Type} {f : α → List Line} {xs : List α}
    (h : ∀ x ∈ xs, Aligned effect rest s (f x) s) : Aligned effect rest s (xs.flatMap f) s := by
  induction xs with
  | nil => exact .nil
  | cons x xs ih =>
    rw [List.flatMap_cons]
    exact (h x List.mem_cons_self).append (ih fun y hy => h y (List.mem_cons_of_mem x hy))

/-- The states before and after a line inside aligned code. -/
theorem at_line (h : Aligned effect rest s (ls ++ line :: ms) t) :
    ∃ u v, Aligned effect rest s ls u ∧ effect line u = some v ∧
      (line.defined?.isSome → u = rest) ∧ (line.target?.isSome → v = rest) ∧
      Aligned effect rest s (ls ++ [line]) v := by
  obtain ⟨u, hls, v, he, hd, ht, -⟩ := append_iff.mp h
  exact ⟨u, v, hls, he, hd, ht, hls.append ⟨v, he, hd, ht, rfl⟩⟩

/-- What stands before a line fixes the state at the line. -/
theorem unique (h : Aligned effect rest s ls t) (h' : Aligned effect rest s ls u) : t = u := by
  induction ls generalizing s with
  | nil => exact h.symm.trans h'
  | cons line ls ih =>
    obtain ⟨v, he, -, -, h⟩ := h
    obtain ⟨w, he', -, -, h'⟩ := h'
    rw [he] at he'
    cases he'
    exact ih h h'

end Aligned

/-- A label defined outside of the two ends of a listing is defined in its middle. -/
theorem exists_of_getElem?_label {before code after : List Line} {j : Nat} {l : Label}
    (hlabels : ∀ line ∈ before ++ after, line.defined? = none)
    (h : (before ++ code ++ after)[j]? = some (.label l)) :
    ∃ front back, code = front ++ .label l :: back ∧ j = before.length + front.length := by
  have hout : ∀ line ∈ before ++ after, line ≠ .label l := by
    rintro line hm rfl
    exact nomatch hlabels _ hm
  rw [List.append_assoc] at h
  rcases Nat.lt_or_ge j before.length with hj | hj
  · rw [List.getElem?_append_left hj] at h
    exact absurd rfl (hout _ (List.mem_append_left _ (List.mem_of_getElem? h)))
  rw [List.getElem?_append_right hj] at h
  rcases Nat.lt_or_ge (j - before.length) code.length with hk | hk
  · rw [List.getElem?_append_left hk] at h
    obtain ⟨hlt, hget⟩ := List.getElem?_eq_some_iff.mp h
    refine ⟨code.take (j - before.length), code.drop (j - before.length + 1), ?_, ?_⟩
    · rw [← hget, ← List.drop_eq_getElem_cons hlt, List.take_append_drop]
    · rw [List.length_take]
      omega
  · rw [List.getElem?_append_right hk] at h
    exact absurd rfl (hout _ (List.mem_append_right _ (List.mem_of_getElem? h)))

/-- Every path through aligned code meets at each line the state found there in the order of the
text. The code is the only place of labels, and control does not pass its last line. -/
theorem Reaches.aligned {before code after : List Line} {init final : S} {i : Nat} {s : S}
    (hc : Aligned effect rest init code final)
    (hlabels : ∀ line ∈ before ++ after, line.defined? = none)
    (hlast : ∃ front line, code = front ++ [line] ∧ line.fallsThrough = false)
    (h : Reaches effect (before ++ code ++ after) before.length init i s) :
    ∃ front line back, code = front ++ line :: back ∧ i = before.length + front.length ∧
      Aligned effect rest init front s := by
  induction h with
  | start =>
    obtain ⟨front, line, rfl, -⟩ := hlast
    cases front with
    | nil => exact ⟨[], line, [], rfl, rfl, rfl⟩
    | cons first front => exact ⟨[], first, front ++ [line], rfl, rfl, rfl⟩
  | @step i j s t line h hl he hf ih =>
    obtain ⟨front, line', back, hcode, rfl, hfront⟩ := ih
    have hline : (before ++ code ++ after)[before.length + front.length]? = some line' := by
      rw [hcode]
      simp
    rw [hl] at hline
    cases hline
    -- The state after the line is the one that the alignment of the code gives.
    obtain ⟨u, v, hu, hv, -, htarget, hnext⟩ := (hcode ▸ hc).at_line
    cases hu.unique hfront
    rw [he] at hv
    cases hv
    cases hf with
    | below hl' hfall =>
      rw [hl] at hl'
      cases hl'
      cases back with
      | nil =>
        obtain ⟨front', last, hcode', hlast'⟩ := hlast
        obtain ⟨-, hll⟩ := List.append_inj' (hcode.symm.trans hcode') rfl
        cases hll
        rw [hfall] at hlast'
        contradiction
      | cons next back =>
        refine ⟨front ++ [line], next, back, by rw [hcode]; simp, ?_, hnext⟩
        rw [List.length_append, List.length_singleton, Nat.add_assoc]
    | @jump _ op l hl' hlabel =>
      rw [hl] at hl'
      cases hl'
      obtain ⟨front', back', hcode', rfl⟩ := exists_of_getElem?_label hlabels hlabel
      obtain ⟨w, -, hw, -, hrest, -, -⟩ := (hcode' ▸ hc).at_line
      cases hrest rfl
      cases htarget rfl
      exact ⟨front', .label l, back', hcode', rfl, hw⟩

end Listing

end StackLowering
