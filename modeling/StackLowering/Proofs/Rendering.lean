import StackLowering.Assembly.Listing
import StackLowering.Text.Pieces

/-!
The text of a listing. A listing whose lines hold no line feed is read off its text: cut at the line
feeds, the text is the texts of the lines and an empty rest. And a line is read off its own text if
it is legible: its first character says what sort of line it is, and the mnemonic of an operation
ends at the first tab or blank.
-/
namespace StackLowering

namespace Text

/-- No piece holds the character at which the text was cut. -/
theorem notMem_of_mem_pieces {sep : Char} {cs p : List Char} (h : p ∈ pieces sep cs) :
    sep ∉ p := by
  induction cs generalizing p with
  | nil =>
    cases List.mem_singleton.mp h
    exact List.not_mem_nil
  | cons c cs ih =>
    rw [pieces] at h
    split at h
    case isTrue hc =>
      rcases List.mem_cons.mp h with rfl | h
      · exact List.not_mem_nil
      · exact ih h
    case isFalse hc =>
      cases hps : pieces sep cs with
      | nil => exact absurd hps (pieces_ne_nil sep cs)
      | cons q qs =>
        rw [hps] at h ih
        rcases List.mem_cons.mp h with rfl | h
        · intro hm
          rcases List.mem_cons.mp hm with hm | hm
          · exact hc hm.symm
          · exact ih List.mem_cons_self hm
        · exact ih (List.mem_cons_of_mem q h)

theorem pieces_append {sep : Char} {p : List Char} (h : sep ∉ p) (cs : List Char) :
    pieces sep (p ++ sep :: cs) = p :: pieces sep cs := by
  induction p with
  | nil => exact if_pos rfl
  | cons c p ih =>
    have hc : ¬ c = sep := fun hc => h (hc ▸ List.mem_cons_self)
    rw [List.cons_append, pieces, if_neg hc, ih fun hm => h (List.mem_cons_of_mem c hm)]
    rfl

theorem pieces_of_notMem {sep : Char} {p : List Char} (h : sep ∉ p) : pieces sep p = [p] := by
  induction p with
  | nil => rfl
  | cons c p ih =>
    have hc : ¬ c = sep := fun hc => h (hc ▸ List.mem_cons_self)
    rw [pieces, if_neg hc, ih fun hm => h (List.mem_cons_of_mem c hm)]
    rfl

end Text

/-- A text without a line feed. -/
def OneLine (text : String) : Prop := '\n' ∉ text.toList

instance (text : String) : Decidable (OneLine text) := inferInstanceAs (Decidable (¬ _))

theorem OneLine.append {s t : String} (hs : OneLine s) (ht : OneLine t) : OneLine (s ++ t) := by
  intro hm
  rw [String.toList_append, List.mem_append] at hm
  exact hm.elim hs ht

theorem oneLine_toString (n : Nat) : OneLine (toString n) := by
  intro hm
  change '\n' ∈ n.repr.toList at hm
  rw [Nat.repr_eq_ofList_toDigits, String.toList_ofList] at hm
  have hdigit := Nat.isDigit_of_mem_toDigits (by omega) (by omega) hm
  contradiction

/-- Cut at its line feeds, the text of a listing is the texts of its lines. -/
theorem Listing.pieces_render {ls : Listing} (h : ∀ line ∈ ls, OneLine line.text) :
    Text.pieces '\n' (render ls).toList = ls.map (·.text.toList) ++ [[]] := by
  induction ls with
  | nil => rfl
  | cons line ls ih =>
    have hrender : (render (line :: ls)).toList =
        line.text.toList ++ '\n' :: (render ls).toList := by
      rw [render, render, List.map_cons, String.join_cons, String.toList_append,
        String.toList_append, List.append_assoc]
      rfl
    rw [hrender, Text.pieces_append (h line List.mem_cons_self),
      ih fun l hl => h l (List.mem_cons_of_mem line hl)]
    rfl

namespace Opcode

def all : List Opcode :=
  [ldc, getStatic, putStatic, arith .int .add, arith .int .sub, arith .int .mul, arith .int .div,
    arith .float .add, arith .float .sub, arith .float .mul, arith .float .div, neg .int,
    neg .float, ifCompare .gt, ifCompare .lt, ifCompare .ge, ifCompare .le, ifCompare .eq,
    ifCompare .ne, fcmpl, fcmpg, ifZero .gt, ifZero .lt, ifZero .ge, ifZero .le, ifZero .eq,
    ifZero .ne, goto, new, dup, pop, aload0, invokeNonVirtual, invokeVirtual, invokeStatic,
    anewarray, aastore, ret, unresolved, unresolvedBranch, unresolvedNeg]

theorem mem_all (op : Opcode) : op ∈ all := by
  cases op with
  | arith kind op => cases kind <;> cases op <;> decide
  | neg kind => cases kind <;> decide
  | ifCompare rel => cases rel <;> decide
  | ifZero rel => cases rel <;> decide
  | _ => decide

/-- Only the placeholders for an arithmetic operation and for a branch share their mnemonic. -/
theorem eq_or_of_mnemonic_eq {a b : Opcode} (h : a.mnemonic = b.mnemonic) :
    a = b ∨ a.isBranch ≠ b.isBranch ∧ (a = .unresolved ∨ b = .unresolved) := by
  have hall : ∀ a ∈ all, ∀ b ∈ all, a.mnemonic = b.mnemonic →
      a = b ∨ a.isBranch ≠ b.isBranch ∧ (a = .unresolved ∨ b = .unresolved) := by decide +kernel
  exact hall a a.mem_all b b.mem_all h

/-- Mnemonics are single words. -/
theorem notMem_mnemonic (op : Opcode) :
    '\t' ∉ op.mnemonic.toList ∧ ' ' ∉ op.mnemonic.toList ∧ OneLine op.mnemonic := by
  have hall : ∀ op ∈ all, '\t' ∉ op.mnemonic.toList ∧ ' ' ∉ op.mnemonic.toList ∧
      OneLine op.mnemonic := by decide +kernel
  exact hall op op.mem_all

/-- What stands behind a mnemonic. -/
def argument (op : Opcode) : Option String → String
  | none => ""
  | some operand => op.separator ++ operand

theorem separator_eq (op : Opcode) : op.separator = "\t" ∨ op.separator = " " := by
  cases op <;> first | exact .inl rfl | exact .inr rfl

/-- What stands behind a mnemonic starts with a tab or a blank, if there is an operand. -/
theorem exists_argument (op : Opcode) (operand : String) :
    ∃ c, (op.argument (some operand)).toList = c :: operand.toList ∧ (c = '\t' ∨ c = ' ') := by
  rw [argument, String.toList_append]
  rcases op.separator_eq with h | h
  · exact ⟨'\t', by rw [h]; rfl, .inl rfl⟩
  · exact ⟨' ', by rw [h]; rfl, .inr rfl⟩

theorem argument_some_ne (op : Opcode) (operand : String) : op.argument (some operand) ≠ "" := by
  obtain ⟨c, hc, -⟩ := op.exists_argument operand
  intro h
  rw [h] at hc
  contradiction

theorem argument_inj {op : Opcode} {x y : Option String} (h : op.argument x = op.argument y) :
    x = y := by
  cases x with
  | none =>
    cases y with
    | none => rfl
    | some y => exact absurd h.symm (op.argument_some_ne y)
  | some x =>
    cases y with
    | none => exact absurd h (op.argument_some_ne x)
    | some y => exact congrArg some ((String.append_right_inj op.separator).mp h)

/-- A mnemonic is read off a text up to the first tab or blank. -/
theorem takeWhile_mnemonic (op : Opcode) (operand : Option String) :
    (op.mnemonic ++ op.argument operand).toList.takeWhile (fun c => c ≠ '\t' ∧ c ≠ ' ') =
      op.mnemonic.toList := by
  have hword : ∀ c ∈ op.mnemonic.toList, decide (c ≠ '\t' ∧ c ≠ ' ') = true := by
    intro c hc
    obtain ⟨htab, hblank, -⟩ := op.notMem_mnemonic
    exact decide_eq_true ⟨fun he => htab (he ▸ hc), fun he => hblank (he ▸ hc)⟩
  rw [String.toList_append, List.takeWhile_append_of_pos hword]
  cases operand with
  | none => exact List.append_nil _
  | some operand =>
    obtain ⟨c, h, hc⟩ := op.exists_argument operand
    rw [h, List.takeWhile_cons_of_neg (by rcases hc with rfl | rfl <;> decide), List.append_nil]

/-- Equal texts of operations have equal mnemonics, and equal texts behind them. -/
theorem mnemonic_append_argument_inj {a b : Opcode} {x y : Option String}
    (h : a.mnemonic ++ a.argument x = b.mnemonic ++ b.argument y) :
    a.mnemonic = b.mnemonic ∧ a.argument x = b.argument y := by
  have hm : a.mnemonic = b.mnemonic := by
    apply String.toList_injective
    rw [← a.takeWhile_mnemonic x, h, b.takeWhile_mnemonic y]
  rw [hm] at h
  exact ⟨hm, (String.append_right_inj b.mnemonic).mp h⟩

end Opcode

theorem Label.text_eq (l : Label) : l.text = "Label_" ++ toString l.id := rfl

theorem Label.text_inj {l m : Label} (h : l.text = m.text) : l = m := by
  rw [text_eq, text_eq, String.append_right_inj] at h
  cases l
  cases m
  exact congrArg Label.mk (toString_injective h)

namespace Line

/-- A line that can be read off its text: a directive shows that it is one, operations that branch
stand in branches and no others do, and the placeholder of an arithmetic operation, which looks like
that of a branch, has no operand. -/
def Legible : Line → Prop
  | directive text => text.toList.head? = some '.'
  | instruction op operand => op.isBranch = false ∧ (op = .unresolved → operand = none)
  | branch op _ => op.isBranch = true
  | _ => True

/-- The first character of a line. -/
def first? : Line → Option Char
  | directive _ => some '.'
  | comment _ => some ';'
  | blank => none
  | label _ => some 'L'
  | instruction _ _ | branch _ _ => some '\t'

theorem text_instruction (op : Opcode) (operand : Option String) :
    (instruction op operand).text = "\t" ++ (op.mnemonic ++ op.argument operand) := by
  cases operand with
  | none => exact congrArg ("\t" ++ ·) String.append_empty.symm
  | some operand => simp only [text, Opcode.argument, String.append_assoc]

theorem text_branch (op : Opcode) (target : Label) :
    (branch op target).text = "\t" ++ (op.mnemonic ++ op.argument (some target.text)) := by
  simp only [text, Opcode.argument, String.append_assoc]

theorem head?_text {line : Line} (h : line.Legible) : line.text.toList.head? = line.first? := by
  cases line with
  | directive text => exact h
  | comment words =>
    rw [text, String.toList_append]
    rfl
  | blank => rfl
  | label l =>
    rw [text, Label.text_eq, String.toList_append, String.toList_append]
    rfl
  | instruction op operand =>
    rw [text_instruction, String.toList_append]
    rfl
  | branch op target =>
    rw [text_branch, String.toList_append]
    rfl

/-- A placeholder for a branch is not taken for one of an arithmetic operation. -/
theorem text_instruction_ne_branch {op jump : Opcode} {operand : Option String} {target : Label}
    (hi : (instruction op operand).Legible) (hb : (branch jump target).Legible) :
    (instruction op operand).text ≠ (branch jump target).text := by
  intro h
  rw [text_instruction, text_branch, String.append_right_inj] at h
  obtain ⟨hm, ha⟩ := Opcode.mnemonic_append_argument_inj h
  obtain ⟨hop, hoperand⟩ := hi
  change jump.isBranch = true at hb
  rcases Opcode.eq_or_of_mnemonic_eq hm with rfl | ⟨-, rfl | rfl⟩
  · rw [hop] at hb
    contradiction
  · rw [hoperand rfl] at ha
    exact jump.argument_some_ne _ ha.symm
  · contradiction

/-- Legible lines with equal texts are equal. -/
theorem eq_of_text_eq {a b : Line} (ha : a.Legible) (hb : b.Legible) (h : a.text = b.text) :
    a = b := by
  have hfirst : a.first? = b.first? := by rw [← head?_text ha, h, head?_text hb]
  cases a with
  | directive text =>
    cases b with
    | directive text' => exact congrArg directive h
    | _ => simp [first?] at hfirst
  | comment text =>
    cases b with
    | comment text' => exact congrArg comment ((String.append_right_inj "; ").mp h)
    | _ => simp [first?] at hfirst
  | blank =>
    cases b with
    | blank => rfl
    | _ => simp [first?] at hfirst
  | label l =>
    cases b with
    | label m => exact congrArg label (Label.text_inj ((String.append_left_inj ":").mp h))
    | _ => simp [first?] at hfirst
  | instruction op operand =>
    cases b with
    | instruction op' operand' =>
      rw [text_instruction, text_instruction, String.append_right_inj] at h
      obtain ⟨hm, hargument⟩ := Opcode.mnemonic_append_argument_inj h
      rcases Opcode.eq_or_of_mnemonic_eq hm with rfl | ⟨hne, -⟩
      · exact congrArg (instruction op) (Opcode.argument_inj hargument)
      · exact absurd (ha.1.trans hb.1.symm) hne
    | branch op' target => exact absurd h (text_instruction_ne_branch ha hb)
    | _ => simp [first?] at hfirst
  | branch op target =>
    cases b with
    | branch op' target' =>
      rw [text_branch, text_branch, String.append_right_inj] at h
      obtain ⟨hm, hargument⟩ := Opcode.mnemonic_append_argument_inj h
      rcases Opcode.eq_or_of_mnemonic_eq hm with rfl | ⟨hne, -⟩
      · have htarget := Option.some.inj (Opcode.argument_inj hargument)
        exact congrArg (branch op) (Label.text_inj htarget)
      · exact absurd (Eq.trans ha (Eq.symm hb)) hne
    | instruction op' operand => exact absurd h.symm (text_instruction_ne_branch hb ha)
    | _ => simp [first?] at hfirst

end Line

/-- Listings of legible lines are read off their texts. -/
theorem Listing.eq_of_map_text_eq {ls ms : Listing} (hl : ∀ line ∈ ls, line.Legible)
    (hm : ∀ line ∈ ms, line.Legible) (h : ls.map (·.text.toList) = ms.map (·.text.toList)) :
    ls = ms := by
  induction ls generalizing ms with
  | nil => exact (List.map_eq_nil_iff.mp h.symm).symm
  | cons a ls ih =>
    cases ms with
    | nil => contradiction
    | cons b ms =>
      obtain ⟨hab, hrest⟩ := List.cons.inj h
      rw [Line.eq_of_text_eq (hl a List.mem_cons_self) (hm b List.mem_cons_self)
          (String.toList_injective hab),
        ih (fun line hline => hl line (List.mem_cons_of_mem a hline))
          (fun line hline => hm line (List.mem_cons_of_mem b hline)) hrest]

end StackLowering
