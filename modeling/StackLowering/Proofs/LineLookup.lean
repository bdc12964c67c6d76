import Mathlib.Data.List.DropRight
import StackLowering.Proofs.Rendering
import StackLowering.Tree.Basic

/-!
Looking up lines in a text that was put together from them. Each line is ended by a line feed, with
or without a carriage return before it, and a lookup gives the line back up to white space at its
ends. A carriage return that belongs to a line may be taken for a part of its end, but then it is
white space at the end of the line, which a lookup leaves out anyway.
-/
namespace StackLowering

namespace Source

/-! Trimming. -/

/-- The line `line` is `words` with nothing but white space around it, and `words` neither begins
nor ends with white space. -/
structure TrimsTo (line words : List Char) : Prop where
  around : ∃ before after, line = before ++ words ++ after ∧
    (∀ c ∈ before, isBlank c = true) ∧ ∀ c ∈ after, isBlank c = true
  first : ∀ h : words ≠ [], ¬ isBlank (words.head h) = true
  last : ∀ h : words ≠ [], ¬ isBlank (words.getLast h) = true

theorem trim_eq_rdropWhile (cs : List Char) :
    trim cs = (cs.dropWhile isBlank).rdropWhile isBlank := rfl

theorem trimsTo_trim (cs : List Char) : TrimsTo cs (trim cs) := by
  rw [trim_eq_rdropWhile]
  refine ⟨⟨cs.takeWhile isBlank, (cs.dropWhile isBlank).rtakeWhile isBlank, ?_,
    fun c hc => List.mem_takeWhile_imp hc, fun c hc => List.mem_rtakeWhile_imp hc⟩, ?_,
    List.rdropWhile_last_not _ _⟩
  · rw [List.append_assoc, List.rdropWhile_append_rtakeWhile, List.takeWhile_append_dropWhile]
  · intro h
    rw [(List.rdropWhile_prefix _ _).head h, List.head_dropWhile_not isBlank]
    exact Bool.false_ne_true

/-- A line trims to one thing only. -/
theorem TrimsTo.trim_eq {line words : List Char} (h : TrimsTo line words) : trim line = words := by
  obtain ⟨⟨before, after, rfl, hbefore, hafter⟩, hfirst, hlast⟩ := h
  rw [trim_eq_rdropWhile, List.append_assoc, List.dropWhile_append_of_pos hbefore]
  by_cases hnil : words = []
  · subst hnil
    rw [List.nil_append, List.dropWhile_eq_nil_iff.mpr hafter, List.rdropWhile_nil]
  · have hfront : (words ++ after).dropWhile isBlank = words ++ after := by
      obtain ⟨c, cs, rfl⟩ := List.exists_cons_of_ne_nil hnil
      exact List.dropWhile_cons_of_neg (hfirst hnil)
    have hback : (words ++ after).rdropWhile isBlank = words.rdropWhile isBlank := by
      rw [List.rdropWhile, List.reverse_append,
        List.dropWhile_append_of_pos fun c hc => hafter c (List.mem_reverse.mp hc),
        List.rdropWhile]
    rw [hfront, hback, List.rdropWhile_eq_self_iff.mpr hlast]

theorem trim_concat_of_isBlank (cs : List Char) {c : Char} (hc : isBlank c = true) :
    trim (cs ++ [c]) = trim cs := by
  obtain ⟨⟨before, after, hcs, hbefore, hafter⟩, hfirst, hlast⟩ := trimsTo_trim cs
  refine TrimsTo.trim_eq ⟨⟨before, after ++ [c], ?_, hbefore, ?_⟩, hfirst, hlast⟩
  · rw [← List.append_assoc, ← hcs]
  · exact List.forall_mem_append.mpr ⟨hafter, List.forall_mem_singleton.mpr hc⟩

/-- Whether a last carriage return is taken for a part of the line's end makes no difference. -/
theorem trim_dropReturn (cs : List Char) : trim (dropReturn cs) = trim cs := by
  unfold dropReturn
  split
  case isTrue h =>
    calc trim cs.dropLast
      _ = trim (cs.dropLast ++ ['\r']) := (trim_concat_of_isBlank _ (by decide)).symm
      _ = trim cs := by rw [List.dropLast_append_getLast? '\r' h]
  case isFalse => rfl

/-! Lines of texts that are put together. -/

theorem lines_append {l : List Char} (h : '\n' ∉ l) (rest : List Char) :
    lines (l ++ '\n' :: rest) = dropReturn l :: lines rest := by
  have hrest := Text.pieces_ne_nil '\n' rest
  rw [lines, Text.pieces_append h, List.dropLast_cons_of_ne_nil hrest,
    List.getLast?_cons_of_ne_nil hrest]
  rfl

/-- The lines of a text as a lookup shows them. -/
def trimmedLines (cs : List Char) : List (List Char) := (lines cs).map trim

theorem trimmedLines_nil : trimmedLines [] = [] := rfl

theorem trimmedLines_of_notMem {l : List Char} (h : '\n' ∉ l) (hl : l ≠ []) :
    trimmedLines l = [trim l] := by
  rw [trimmedLines, lines, Text.pieces_of_notMem h]
  simp [hl]

theorem trimmedLines_append {l : List Char} (h : '\n' ∉ l) (rest : List Char) :
    trimmedLines (l ++ '\n' :: rest) = trim l :: trimmedLines rest := by
  rw [trimmedLines, lines_append h, List.map_cons, trim_dropReturn, trimmedLines]

theorem line?_succ (text : String) (i : Nat) :
    line? text (i + 1) = (trimmedLines text.toList)[i]?.map String.ofList := by
  rw [trimmedLines, List.getElem?_map, Option.map_map]
  rfl

/-- What can end a line. -/
inductive LineEnd where
  | feed
  | returnFeed
deriving DecidableEq, Repr

def LineEnd.text : LineEnd → String
  | feed => "\n"
  | returnFeed => "\r\n"

/-- A line with its end. The line itself may well end with carriage returns. -/
structure EndedLine where
  line : String
  ending : LineEnd
  oneLine : OneLine line

namespace EndedLine

def text (l : EndedLine) : String := l.line ++ l.ending.text

/-- The line without the white space at its ends. -/
def words (l : EndedLine) : List Char := trim l.line.toList

/-- One line is split off a text that begins with it. -/
theorem trimmedLines_text (l : EndedLine) (rest : List Char) :
    trimmedLines (l.text.toList ++ rest) = l.words :: trimmedLines rest := by
  obtain ⟨line, ending, hline⟩ := l
  cases ending with
  | feed =>
    have htext : (line ++ "\n").toList ++ rest = line.toList ++ '\n' :: rest := by simp
    exact htext ▸ trimmedLines_append hline rest
  | returnFeed =>
    have htext : (line ++ "\r\n").toList ++ rest = (line.toList ++ ['\r']) ++ '\n' :: rest := by
      simp
    have hreturn : '\n' ∉ line.toList ++ ['\r'] := by
      rw [List.mem_append, not_or]
      exact ⟨hline, by decide⟩
    change trimmedLines ((line ++ "\r\n").toList ++ rest) = trim line.toList :: _
    rw [htext, trimmedLines_append hreturn, trim_concat_of_isBlank _ (by decide)]

end EndedLine

/-- Lines with their ends, one behind the other. -/
def joined (ls : List EndedLine) : String := String.join (ls.map (·.text))

theorem toList_joined_cons (l : EndedLine) (ls : List EndedLine) :
    (joined (l :: ls)).toList = l.text.toList ++ (joined ls).toList := by
  rw [joined, List.map_cons, String.join_cons, String.toList_append, joined]

theorem joined_concat (ls : List EndedLine) (l : EndedLine) :
    joined (ls ++ [l]) = joined ls ++ l.line ++ l.ending.text := by
  rw [joined, List.map_append, String.join_append, List.map_singleton, String.join_cons,
    String.join_nil, String.append_empty, EndedLine.text, ← String.append_assoc, joined]

/-- A text that begins with ended lines shows them first. -/
theorem trimmedLines_joined_append (ls : List EndedLine) (rest : List Char) :
    trimmedLines ((joined ls).toList ++ rest) = ls.map (·.words) ++ trimmedLines rest := by
  induction ls with
  | nil => rfl
  | cons l ls ih =>
    rw [toList_joined_cons, List.append_assoc, l.trimmedLines_text, ih, List.map_cons,
      List.cons_append]

theorem trimmedLines_joined (ls : List EndedLine) :
    trimmedLines (joined ls).toList = ls.map (·.words) := by
  rw [← List.append_nil (joined ls).toList, trimmedLines_joined_append, trimmedLines_nil,
    List.append_nil]

theorem line?_joined (ls : List EndedLine) (i : Nat) :
    line? (joined ls) (i + 1) = ls[i]?.map fun l => String.ofList l.words := by
  rw [line?_succ, trimmedLines_joined, List.getElem?_map, Option.map_map]
  rfl

theorem line?_joined_of_length_lt {ls : List EndedLine} {n : Nat} (h : ls.length < n) :
    line? (joined ls) n = none := by
  obtain ⟨i, rfl⟩ := Nat.exists_eq_add_of_lt (Nat.zero_lt_of_lt h)
  rw [Nat.zero_add, line?_joined, List.getElem?_eq_none (by omega), Option.map_none]

/-- A last line that is not empty is a line with or without its end. -/
theorem line?_unended (ls : List EndedLine) {l : EndedLine} (hl : l.line ≠ "") (n : Nat) :
    line? (joined ls ++ l.line) n = line? (joined (ls ++ [l])) n := by
  have hlines : trimmedLines (joined ls ++ l.line).toList =
      trimmedLines (joined (ls ++ [l])).toList := by
    rw [String.toList_append, trimmedLines_joined_append, trimmedLines_joined, List.map_append,
      trimmedLines_of_notMem l.oneLine (by simpa using hl)]
    rfl
  cases n with
  | zero => rw [line?_zero, line?_zero]
  | succ i => rw [line?_succ, line?_succ, hlines]

/-- A last line shows under its own number only. -/
theorem line?_joined_concat_of_ne (ls : List EndedLine) (l : EndedLine) {n : Nat}
    (hn : n ≠ ls.length + 1) : line? (joined (ls ++ [l])) n = line? (joined ls) n := by
  cases n with
  | zero => rw [line?_zero, line?_zero]
  | succ i =>
    rw [line?_joined, line?_joined]
    rcases Nat.lt_or_gt_of_ne (show i ≠ ls.length by omega) with hlt | hgt
    · rw [List.getElem?_append_left hlt]
    · have hall : (ls ++ [l]).length ≤ i := by
        rw [List.length_append, List.length_singleton]
        omega
      rw [List.getElem?_eq_none hall, List.getElem?_eq_none (Nat.le_of_lt hgt)]

end Source

open Source

/-- The program with `text` for its source. -/
def Program.withSource (p : Program) (text : String) : Program := { p with source := some text }

theorem Program.sourceLine?_withSource (p : Program) (text : String) (n : UInt32) :
    (p.withSource text).sourceLine? n = line? text n.toNat := rfl

/-- A program whose source was put together from ended lines has these lines, trimmed, under the
numbers from one on, and no others. Where the source loses its last line end, an empty last line is
lost with it, and nothing else changes. -/
theorem Program.lookup_inverts_joining (p : Program) (ls : List EndedLine) :
    (∀ (i : Nat) (hi : i < ls.length) (n : UInt32), n.toNat = i + 1 →
      ∃ words, (p.withSource (joined ls)).sourceLine? n = some words ∧
        TrimsTo (ls.get ⟨i, hi⟩).line.toList words.toList) ∧
    (∀ n : UInt32, n = 0 ∨ ls.length < n.toNat →
      (p.withSource (joined ls)).sourceLine? n = none) ∧
    ∀ (last : EndedLine) (text : String), ls.getLast? = some last →
      joined ls = text ++ last.ending.text → ∀ n : UInt32,
      (p.withSource text).sourceLine? n =
        if last.line = "" ∧ n.toNat = ls.length then none
        else (p.withSource (joined ls)).sourceLine? n := by
  simp only [sourceLine?_withSource]
  refine ⟨?_, ?_, ?_⟩
  · intro i hi n hn
    refine ⟨String.ofList (ls.get ⟨i, hi⟩).words, ?_, ?_⟩
    · rw [hn, line?_joined, List.getElem?_eq_getElem hi]
      rfl
    · rw [String.toList_ofList]
      exact trimsTo_trim _
  · rintro n (rfl | hn)
    · rfl
    · exact line?_joined_of_length_lt hn
  · intro last text hlast htext n
    obtain ⟨front, rfl⟩ := List.getLast?_eq_some_iff.mp hlast
    rw [joined_concat, String.append_left_inj] at htext
    rw [← htext, List.length_append, List.length_singleton]
    by_cases hempty : last.line = ""
    -- With its end, an empty last line leaves nothing behind.
    · rw [hempty, String.append_empty]
      by_cases hn : n.toNat = front.length + 1
      · rw [if_pos ⟨rfl, hn⟩, line?_joined_of_length_lt (by omega)]
      · rw [if_neg (fun h => hn h.2), line?_joined_concat_of_ne front last hn]
    · rw [if_neg (fun h => hempty h.1), line?_unended front hempty]

namespace Source

/-- Lines with white space of several kinds, with carriage returns of their own and with nothing in
them, under both kinds of ends. -/
def ragged : List EndedLine :=
  [⟨"  x := 1;\r\r", .feed, by decide⟩, ⟨"", .returnFeed, by decide⟩,
    ⟨"\u00A0y := 2;\t\u3000", .returnFeed, by decide⟩, ⟨"", .feed, by decide⟩]

def raggedUnended : String := "  x := 1;\r\r\n\r\n\u00A0y := 2;\t\u3000\r\n"

end Source

def Program.idle : Program where
  name := "Idle"
  decls := []
  body := []

theorem Program.ragged_lookup_inverts_joining :
    joined ragged = raggedUnended ++ "\n" ∧
      (∃ words, (idle.withSource (joined ragged)).sourceLine? 3 = some words ∧
        TrimsTo "\u00A0y := 2;\t\u3000".toList words.toList) ∧
      (idle.withSource (joined ragged)).sourceLine? 5 = none ∧
      (idle.withSource raggedUnended).sourceLine? 3 =
        (idle.withSource (joined ragged)).sourceLine? 3 ∧
      (idle.withSource raggedUnended).sourceLine? 4 = none := by
  have htext : joined ragged = raggedUnended ++ "\n" := by decide
  obtain ⟨hlines, hnone, hunended⟩ := lookup_inverts_joining idle ragged
  exact ⟨htext, hlines 2 (by decide) 3 (by decide), hnone 5 (by decide),
    hunended _ _ rfl htext 3, hunended _ _ rfl htext 4⟩

end StackLowering
