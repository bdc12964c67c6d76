import StackLowering.Options.Reader
import StackLowering.Proofs.TomlGrammar

/-!
The flat reader reads TOML 1.0 as far as the grammar tells. Lines with plain values are read as the
entries that they spell, and a text that gives a key a value of another type is refused.
-/
namespace StackLowering.Toml

theorem ne_of_class {p : Char → Bool} {c d : Char} (hc : p c = true) (hd : p d = false) :
    c ≠ d := by
  rintro rfl
  rw [hc] at hd
  cases hd

/-! Strings. -/

theorem basicBody_of_isBasic {c : Char} (h : isBasic c = true) (rest : List Char) :
    basicBody (c :: rest) = push c (basicBody rest) := by
  have hquote : c ≠ '"' := ne_of_class h rfl
  have hslash : c ≠ '\\' := ne_of_class h rfl
  rw [basicBody.eq_def]
  split <;> simp_all

theorem basicBody_of_letter {c e : Char} (h : shortEscape? e = some c) (rest : List Char) :
    basicBody ('\\' :: e :: rest) = push c (basicBody rest) := by
  have hshort : e ≠ 'u' := by
    rintro rfl
    cases h
  have hlong : e ≠ 'U' := by
    rintro rfl
    cases h
  have hread : basicBody ('\\' :: e :: rest) = push? (shortEscape? e) (basicBody rest) := by
    simp [basicBody, hshort, hlong]
  rw [hread, h]
  rfl

theorem SpellsChar.basicBody_append {c : Char} {w : List Char} (h : SpellsChar c w)
    (rest : List Char) : basicBody (w ++ rest) = push c (basicBody rest) := by
  cases h with
  | plain h => exact basicBody_of_isBasic h rest
  | letter h => exact basicBody_of_letter h rest
  | @short ds hlength h =>
    match ds, hlength with
    | [a, b, c, d], _ =>
      simp only [List.cons_append, List.nil_append, basicBody, h]
      rfl
  | @long ds hlength h =>
    match ds, hlength with
    | [a, b, c, d, e, f, g, i], _ =>
      simp only [List.cons_append, List.nil_append, basicBody, h]
      rfl

theorem SpellsText.basicBody_append {cs w : List Char} (h : SpellsText cs w) (rest : List Char) :
    basicBody (w ++ '"' :: rest) = some (cs, rest) := by
  induction h with
  | nil => rfl
  | cons h hs ih =>
    rw [List.append_assoc, h.basicBody_append, ih]
    rfl

/-- The spelling of a character begins with another one than a quote. -/
theorem SpellsChar.exists_eq_cons {c : Char} {w : List Char} (h : SpellsChar c w) :
    ∃ d ds, w = d :: ds ∧ d ≠ '"' := by
  cases h with
  | plain h => exact ⟨c, [], rfl, ne_of_class h rfl⟩
  | letter h => exact ⟨_, _, rfl, by decide⟩
  | short _ h => exact ⟨_, _, rfl, by decide⟩
  | long _ h => exact ⟨_, _, rfl, by decide⟩

theorem string?_of_ne {cs : List Char} (h : ∀ rest, cs ≠ '"' :: '"' :: rest) :
    string? ('"' :: cs) = basicBody cs := by
  rw [string?.eq_def]
  split <;> simp_all

theorem SpellsString.string?_append {s : String} {w rest : List Char} (h : SpellsString s w)
    (hrest : rest.head? ≠ some '"') : string? (w ++ rest) = some (s.toList, rest) := by
  obtain @⟨w, h⟩ := h
  rw [List.cons_append, List.append_assoc, List.singleton_append, string?_of_ne,
    h.basicBody_append]
  -- Three quotes in a row would open a string of several lines.
  generalize s.toList = cs at h
  cases h with
  | nil =>
    rintro after heq
    obtain rfl : rest = '"' :: after := List.tail_eq_of_cons_eq heq
    exact hrest rfl
  | cons h hs =>
    obtain ⟨d, ds, rfl, hne⟩ := h.exists_eq_cons
    rintro after heq
    exact hne (List.head_eq_of_cons_eq heq)

/-! Integers. -/

theorem digit?_of_isDigit {c : Char} (h : c.isDigit = true) :
    digit? 10 c = some (c.toNat - '0'.toNat) := by
  have hrange : 0x30 ≤ c.toNat ∧ c.toNat ≤ 0x39 := Char.isDigit_iff_toNat.mp h
  unfold digit?
  simp only [hrange, and_self, if_true]
  rw [if_pos (by omega)]
  rfl

theorem digitsFrom_cons (base acc : Nat) {c : Char} (h : c ≠ '_') (cs : List Char) :
    digitsFrom base acc (c :: cs) =
      (digit? base c).bind fun d => digitsFrom base (acc * base + d) cs := by
  rw [digitsFrom.eq_def]
  split <;> simp_all

theorem digitsFrom_of_isDigit {cs : List Char} (h : ∀ c ∈ cs, c.isDigit = true) (acc : Nat) :
    digitsFrom 10 acc cs = some (Nat.ofDigitChars 10 cs acc) := by
  induction cs generalizing acc with
  | nil => rfl
  | cons c cs ih =>
    obtain ⟨hc, hcs⟩ := List.forall_mem_cons.mp h
    have hne : c ≠ '_' := ne_of_class hc rfl
    rw [digitsFrom_cons 10 acc hne, digit?_of_isDigit hc, Option.bind_some, ih hcs,
      Nat.ofDigitChars_cons, Nat.mul_comm acc]

theorem digits?_of_isDigit {cs : List Char} (hne : cs ≠ []) (h : ∀ c ∈ cs, c.isDigit = true) :
    digits? 10 cs = some (Nat.ofDigitChars 10 cs 0) := by
  cases cs with
  | nil => exact absurd rfl hne
  | cons c cs =>
    have hc : c ≠ '_' := ne_of_class (h c List.mem_cons_self) rfl
    rw [← digitsFrom_of_isDigit h, digitsFrom_cons 10 0 hc, Nat.zero_mul]
    simp only [Nat.zero_add]
    rfl

namespace IsNumeral

variable {ds : List Char}

/-- A numeral is zero, or it begins with another digit. -/
theorem cases_head (h : IsNumeral ds) :
    ds = ['0'] ∨ ∃ c cs, ds = c :: cs ∧ c ≠ '0' ∧ c.isDigit = true := by
  obtain ⟨c, cs, rfl⟩ := List.exists_cons_of_ne_nil h.nonempty
  by_cases hc : c = '0'
  · exact .inl (h.lead (by rw [hc]; rfl))
  · exact .inr ⟨c, cs, rfl, hc, h.digits c List.mem_cons_self⟩

theorem decimal?_eq (h : IsNumeral ds) : decimal? ds = some (Nat.ofDigitChars 10 ds 0) := by
  obtain rfl | ⟨c, cs, rfl, hc, -⟩ := h.cases_head
  · rfl
  · rw [← digits?_of_isDigit h.nonempty h.digits, decimal?.eq_def]
    split <;> simp_all

theorem integer?_eq (h : IsNumeral ds) :
    integer? ds = some (Nat.ofDigitChars 10 ds 0 : Int) := by
  obtain rfl | ⟨c, cs, rfl, hc, hdigit⟩ := h.cases_head
  · rfl
  · have hread : integer? (c :: cs) = (decimal? (c :: cs)).map Int.ofNat := by
      rw [integer?.eq_def]
      split <;> simp_all
    rw [hread, h.decimal?_eq]
    rfl

end IsNumeral

theorem digitsFrom_eq_none {base acc : Nat} {cs : List Char} {c : Char} (hmem : c ∈ cs)
    (hc : digit? base c = none) (hne : c ≠ '_') : digitsFrom base acc cs = none := by
  fun_induction digitsFrom base acc cs with
  | case1 acc => cases hmem
  | case2 acc d cs ih =>
    obtain rfl | rfl | hcs := List.mem_cons.mp hmem |>.imp_right List.mem_cons.mp
    · exact absurd rfl hne
    · rw [hc]
      rfl
    · exact Option.bind_eq_none_iff.mpr fun n _ => ih n hcs
  | case3 acc d cs _ ih =>
    obtain rfl | hcs := List.mem_cons.mp hmem
    · rw [hc]
      rfl
    · exact Option.bind_eq_none_iff.mpr fun n _ => ih n hcs

theorem digits?_eq_none {base : Nat} {cs : List Char} {c : Char} (hmem : c ∈ cs)
    (hc : digit? base c = none) (hne : c ≠ '_') : digits? base cs = none := by
  cases cs with
  | nil => cases hmem
  | cons d cs =>
    rw [digits?]
    obtain rfl | hcs := List.mem_cons.mp hmem
    · rw [hc]
      rfl
    · exact Option.bind_eq_none_iff.mpr fun n _ => digitsFrom_eq_none hcs hc hne

/-- A character that is no digit stands in no number, the underscore apart. -/
theorem decimal?_eq_none {cs : List Char} {c : Char} (hmem : c ∈ cs) (hc : digit? 10 c = none)
    (hne : c ≠ '_') : decimal? cs = none := by
  rw [decimal?.eq_def]
  split
  · obtain rfl := List.mem_singleton.mp hmem
    cases hc
  · rfl
  · exact digits?_eq_none hmem hc hne

/-! Words. -/

theorem isDelimiter_of_class {p : Char → Bool} (h : [' ', '\t', '\n', '#'].all (!p ·) = true)
    {c : Char} (hc : p c = true) : isDelimiter c = false := by
  have hne {d : Char} (hd : d ∈ [' ', '\t', '\n', '#']) : c ≠ d :=
    ne_of_class hc (by simpa using List.all_eq_true.mp h d hd)
  simp [isDelimiter, isSpace, hne]

theorem isSpace_of_class {p : Char → Bool} (h : p ' ' = false ∧ p '\t' = false) {c : Char}
    (hc : p c = true) : isSpace c = false := by
  simp [isSpace, ne_of_class hc h.1, ne_of_class hc h.2]

theorem value?_of_ne {c : Char} (hquote : c ≠ '"') (hliteral : c ≠ '\'') (cs : List Char) :
    value? (c :: cs) = (word? ((c :: cs).takeWhile (!isDelimiter ·))).map
      fun v => (v, (c :: cs).dropWhile (!isDelimiter ·)) := by
  rw [value?.eq_def]
  split <;> simp_all

/-- The characters of integers and booleans. -/
def isWordChar (c : Char) : Bool := c.isAlphanum || c == '+' || c == '-'

/-- The word of a plain value other than a string. -/
structure IsWord (p : Plain) (w : List Char) : Prop where
  nonempty : w ≠ []
  chars : ∀ c ∈ w, isWordChar c = true
  read : word? w = some p

theorem IsWord.of_integer? {w : List Char} {n : Int} (hne : w ≠ [])
    (hchars : ∀ c ∈ w, isWordChar c = true) (h : integer? w = some n) :
    IsWord (.integer n) w where
  nonempty := hne
  chars := hchars
  read := by
    have htrue : w ≠ "true".toList := by
      rintro rfl
      cases h
    have hfalse : w ≠ "false".toList := by
      rintro rfl
      cases h
    rw [word?, if_neg htrue, if_neg hfalse, h]
    rfl

theorem IsNumeral.isWordChar {ds : List Char} (h : IsNumeral ds) {c : Char} (hc : c ∈ ds) :
    isWordChar c = true := by
  simp [Toml.isWordChar, Char.isAlphanum, h.digits c hc]

/-- A plain value is a string or a word. -/
theorem SpellsPlain.cases_word {p : Plain} {w : List Char} (h : SpellsPlain p w) :
    (∃ s, p = .text s ∧ SpellsString s w) ∨ IsWord p w := by
  cases h with
  | text h => exact .inl ⟨_, rfl, h⟩
  | unsigned h => exact .inr (.of_integer? h.nonempty (fun _ => h.isWordChar) h.integer?_eq)
  | positive h =>
    refine .inr (.of_integer? (List.cons_ne_nil _ _) ?_ ?_)
    · exact List.forall_mem_cons.mpr ⟨rfl, fun _ => h.isWordChar⟩
    · rw [integer?, h.decimal?_eq]
      rfl
  | negative h =>
    refine .inr (.of_integer? (List.cons_ne_nil _ _) ?_ ?_)
    · exact List.forall_mem_cons.mpr ⟨rfl, fun _ => h.isWordChar⟩
    · rw [integer?, h.decimal?_eq]
      rfl
  | boolean b =>
    refine .inr ?_
    cases b with
    | false => exact ⟨by decide, List.all_eq_true.mp rfl, rfl⟩
    | true => exact ⟨by decide, List.all_eq_true.mp rfl, rfl⟩

theorem IsWord.value?_append {p : Plain} {w rest : List Char} (h : IsWord p w)
    (hrest : ∀ c ∈ rest.head?, c = '\n') : value? (w ++ rest) = some (p, rest) := by
  have hword (c : Char) (hc : c ∈ w) : (!isDelimiter c) = true := by
    simp [isDelimiter_of_class rfl (h.chars c hc)]
  have hstop : rest.takeWhile (!isDelimiter ·) = [] ∧ rest.dropWhile (!isDelimiter ·) = rest := by
    cases rest with
    | nil => exact ⟨rfl, rfl⟩
    | cons c rest =>
      obtain rfl := hrest c rfl
      exact ⟨rfl, rfl⟩
  have hread : value? (w ++ rest) = (word? ((w ++ rest).takeWhile (!isDelimiter ·))).map
      fun v => (v, (w ++ rest).dropWhile (!isDelimiter ·)) := by
    obtain ⟨c, cs, rfl⟩ := List.exists_cons_of_ne_nil h.nonempty
    have hc := h.chars c List.mem_cons_self
    exact value?_of_ne (ne_of_class hc rfl) (ne_of_class hc rfl) _
  rw [hread, List.takeWhile_append_of_pos hword, List.dropWhile_append_of_pos hword, hstop.1,
    hstop.2, List.append_nil, h.read]
  rfl

/-- A plain value that stands at the end of its line is read. -/
theorem SpellsPlain.value?_append {p : Plain} {w rest : List Char} (h : SpellsPlain p w)
    (hrest : ∀ c ∈ rest.head?, c = '\n') : value? (w ++ rest) = some (p, rest) := by
  obtain ⟨s, rfl, hs⟩ | hword := h.cases_word
  · have hquote : rest.head? ≠ some '"' := by
      intro hhead
      cases hrest _ hhead
    have hread : value? (w ++ rest) =
        (string? (w ++ rest)).map fun r => (.text (String.ofList r.1), r.2) := by
      cases hs
      rfl
    rw [hread, hs.string?_append hquote, Option.map_some, String.ofList_toList]
  · exact hword.value?_append hrest

/-! Values of other types. -/

/-- The characters that stand in the front of a value of another type. -/
def isFront (c : Char) : Bool :=
  isNumeric c || c ∈ ['+', '-', '[', '\x7b', 'i', 'n', '.', 'e', 'E', ':']

namespace Other

theorem isNumeric_of_mem (o : Other) {c : Char} (h : c ∈ o.digits) : isNumeric c = true :=
  List.all_eq_true.mp o.digits_all c h

theorem isFront_of_mem_digits (o : Other) {c : Char} (h : c ∈ o.digits) : isFront c = true := by
  simp [isFront, o.isNumeric_of_mem h]

theorem mark_spec (o : Other) :
    isFront o.mark = true ∧ digit? 10 o.mark = none ∧ o.mark ≠ '_' := by
  have hmarks : (['[', '\x7b', 'i', 'n'] ++ ['.', 'e', 'E', '-', ':']).all
      (fun c => isFront c && (digit? 10 c).isNone && c != '_') = true := rfl
  have hmem : o.mark ∈ ['[', '\x7b', 'i', 'n'] ++ ['.', 'e', 'E', '-', ':'] := by
    have h := o.mark_mem
    split at h
    · exact List.mem_append_left _ h
    · exact List.mem_append_right _ h
  simpa [and_assoc] using List.all_eq_true.mp hmarks o.mark hmem

theorem isFront_of_mem (o : Other) {c : Char} (h : c ∈ o.front) : isFront c = true := by
  have hsigns : [[], ['+'], ['-']].all (·.all isFront) = true := rfl
  rw [front, List.mem_append, List.mem_append, List.mem_singleton] at h
  obtain h | h | rfl := h
  · exact List.all_eq_true.mp (List.all_eq_true.mp hsigns o.sign o.sign_mem) c h
  · exact o.isFront_of_mem_digits h
  · exact o.mark_spec.1

theorem exists_front_eq (o : Other) : ∃ c cs, o.front = c :: cs ∧ isFront c = true := by
  match hfront : o.front with
  | [] => simp [front] at hfront
  | c :: cs => exact ⟨c, cs, rfl, o.isFront_of_mem (hfront ▸ List.mem_cons_self)⟩

theorem decimal?_body (o : Other) (rest : List Char) :
    decimal? (o.digits ++ o.mark :: rest) = none := by
  obtain ⟨-, hdigit, hne⟩ := o.mark_spec
  exact decimal?_eq_none (List.mem_append_right _ List.mem_cons_self) hdigit hne

/-- Without a sign, the first character opens the value, or it is a digit with a further character
of the front after it. -/
theorem body_cases (o : Other) (rest : List Char) :
    o.digits = [] ∧ o.mark ∈ ['[', '\x7b', 'i', 'n'] ∨
      ∃ c d cs, o.digits ++ o.mark :: rest = c :: d :: cs ∧ isNumeric c = true ∧
        isFront d = true := by
  have hmark := o.mark_mem
  match hdigits : o.digits with
  | [] => exact .inl ⟨rfl, by simpa [hdigits] using hmark⟩
  | [c] =>
    refine .inr ⟨c, o.mark, rest, rfl, o.isNumeric_of_mem ?_, o.mark_spec.1⟩
    simp [hdigits]
  | c :: d :: cs =>
    refine .inr ⟨c, d, _, rfl, o.isNumeric_of_mem ?_, o.isFront_of_mem_digits ?_⟩
    · simp [hdigits]
    · simp [hdigits]

theorem integer?_body (o : Other) (rest : List Char) :
    integer? (o.digits ++ o.mark :: rest) = none := by
  have hbody := o.decimal?_body rest
  obtain ⟨hdigits, hmark⟩ | ⟨c, d, cs, heq, hc, hd⟩ := o.body_cases rest
  · simp only [List.mem_cons, List.not_mem_nil, or_false] at hmark
    rw [hdigits, List.nil_append]
    obtain h | h | h | h := hmark <;> rw [h] <;> rfl
  · have hplus : c ≠ '+' := ne_of_class hc rfl
    have hminus : c ≠ '-' := ne_of_class hc rfl
    have hx : d ≠ 'x' := ne_of_class hd rfl
    have ho : d ≠ 'o' := ne_of_class hd rfl
    have hb : d ≠ 'b' := ne_of_class hd rfl
    rw [heq] at hbody ⊢
    rw [integer?.eq_def]
    split <;> simp_all

theorem integer?_written (o : Other) : integer? o.written = none := by
  have hbody := o.decimal?_body o.rest
  have hsign := o.sign_mem
  simp only [List.mem_cons, List.not_mem_nil, or_false] at hsign
  rw [written, front, List.append_assoc, List.append_assoc, List.singleton_append]
  obtain h | h | h := hsign
  · rw [h, List.nil_append, integer?_body]
  · rw [h, List.singleton_append, integer?, hbody]
    rfl
  · rw [h, List.singleton_append, integer?, hbody]
    rfl

theorem word?_written (o : Other) : word? o.written = none := by
  obtain ⟨c, cs, hfront, hc⟩ := o.exists_front_eq
  have hne (d : Char) (ds : List Char) (hd : isFront d = false) : o.written ≠ d :: ds := by
    rw [written, hfront, List.cons_append]
    intro h
    exact ne_of_class hc hd (List.head_eq_of_cons_eq h)
  have htrue : o.written ≠ "true".toList := hne 't' _ rfl
  have hfalse : o.written ≠ "false".toList := hne 'f' _ rfl
  rw [word?, if_neg htrue, if_neg hfalse, integer?_written]
  rfl

/-- No value of another type is read. -/
theorem value?_written (o : Other) : value? o.written = none := by
  obtain ⟨c, cs, hfront, hc⟩ := o.exists_front_eq
  -- The word up to the next delimiter has the same front, whatever the rest holds.
  have hword : o.written.takeWhile (!isDelimiter ·) =
      ({ o with rest := o.rest.takeWhile (!isDelimiter ·) } : Other).written := by
    rw [written, List.takeWhile_append_of_pos]
    · rfl
    · intro c hc
      simp [isDelimiter_of_class rfl (o.isFront_of_mem hc)]
  have hread : value? o.written = (word? (o.written.takeWhile (!isDelimiter ·))).map
      fun v => (v, o.written.dropWhile (!isDelimiter ·)) := by
    rw [written, hfront, List.cons_append]
    exact value?_of_ne (ne_of_class hc rfl) (ne_of_class hc rfl) _
  rw [hread, hword, word?_written]
  rfl

end Other

/-! Lines. -/

/-- What a key begins with. -/
def isKeyStart (c : Char) : Bool := c = '"' || isBareKey c

namespace SpellsKey

variable {key : String} {w : List Char}

theorem exists_eq_cons (h : SpellsKey key w) : ∃ c cs, w = c :: cs ∧ isKeyStart c = true := by
  cases h with
  | bare hne h =>
    obtain ⟨c, cs, hcs⟩ := List.exists_cons_of_ne_nil hne
    have hc := h c (hcs ▸ List.mem_cons_self)
    exact ⟨c, cs, hcs, by simp [isKeyStart, hc]⟩
  | quoted h =>
    cases h
    exact ⟨_, _, rfl, rfl⟩

theorem skipSpaces_append (h : SpellsKey key w) (rest : List Char) :
    skipSpaces (w ++ rest) = w ++ rest := by
  obtain ⟨c, cs, rfl, hc⟩ := h.exists_eq_cons
  have hspace : isSpace c = false := isSpace_of_class ⟨rfl, rfl⟩ hc
  rw [skipSpaces, List.cons_append, List.dropWhile_cons_of_neg (by simp [hspace])]

theorem lineEnd?_append (h : SpellsKey key w) (rest : List Char) :
    lineEnd? (w ++ rest) = none := by
  rw [lineEnd?, h.skipSpaces_append]
  obtain ⟨c, cs, rfl, hc⟩ := h.exists_eq_cons
  have hfeed : c ≠ '\n' := ne_of_class hc rfl
  have hcomment : c ≠ '#' := ne_of_class hc rfl
  simp only [List.cons_append]
  split <;> simp_all

theorem dropMark_append (h : SpellsKey key w) (rest : List Char) :
    dropMark (w ++ rest) = w ++ rest := by
  obtain ⟨c, cs, rfl, hc⟩ := h.exists_eq_cons
  have hne : c ≠ '\uFEFF' := ne_of_class hc rfl
  simp only [List.cons_append]
  rw [dropMark.eq_def]
  split <;> simp_all

theorem key?_append (h : SpellsKey key w) (rest : List Char) :
    key? (w ++ ' ' :: rest) = some (key, ' ' :: rest) := by
  cases h with
  | bare hne hbare =>
    have hread : key? (key.toList ++ ' ' :: rest) =
        some (String.ofList ((key.toList ++ ' ' :: rest).takeWhile isBareKey),
          (key.toList ++ ' ' :: rest).dropWhile isBareKey) := by
      obtain ⟨c, cs, hcs⟩ := List.exists_cons_of_ne_nil hne
      have hc := hbare c (hcs ▸ List.mem_cons_self)
      have hquote : c ≠ '"' := ne_of_class hc rfl
      have hliteral : c ≠ '\'' := ne_of_class hc rfl
      rw [hcs, List.cons_append, key?.eq_def]
      split <;> simp_all
    have htake : (' ' :: rest).takeWhile isBareKey = [] := rfl
    have hdrop : (' ' :: rest).dropWhile isBareKey = ' ' :: rest := rfl
    rw [hread, List.takeWhile_append_of_pos hbare, List.dropWhile_append_of_pos hbare, htake, hdrop,
      List.append_nil, String.ofList_toList]
  | quoted h =>
    obtain @⟨w, h⟩ := h
    have hread : key? ('"' :: (w ++ ['"']) ++ ' ' :: rest) =
        (basicBody (w ++ ['"'] ++ ' ' :: rest)).map fun r => (String.ofList r.1, r.2) := rfl
    rw [hread, List.append_assoc, List.singleton_append, h.basicBody_append, Option.map_some,
      String.ofList_toList]

/-- After a key, the value is read up to the end of its line. -/
theorem keyValue?_append (h : SpellsKey key w) {c : Char} (hc : isSpace c = false)
    (cs : List Char) :
    keyValue? (w ++ (keySeparator ++ c :: cs)) = (value? (c :: cs)).bind fun r =>
      (lineEnd? r.2).bind fun rest => some ((key, r.1), rest) := by
  have htext : skipSpaces (' ' :: c :: cs) = c :: cs := by
    rw [skipSpaces, List.dropWhile_cons_of_pos rfl, List.dropWhile_cons_of_neg (by simp [hc])]
  rw [keyValue?, h.skipSpaces_append, keySeparator]
  simp only [List.cons_append, List.nil_append, h.key?_append]
  change (value? (skipSpaces (' ' :: c :: cs))).bind _ = _
  rw [htext]
  rfl

end SpellsKey

theorem entries?_of_keyValue {n : Nat} {cs : List Char} (h : lineEnd? cs = none) :
    entries? (n + 1) cs = (keyValue? cs).bind fun r => (entries? n r.2).map (r.1 :: ·) := by
  cases cs with
  | nil => cases h
  | cons c cs =>
    rw [entries?, h]
    cases keyValue? (c :: cs) with
    | none => rfl
    | some r =>
      change (entries? n r.2).bind (fun es => some (r.1 :: es)) = (entries? n r.2).map (r.1 :: ·)
      cases entries? n r.2 <;> rfl

theorem SpellsPlain.exists_eq_cons {p : Plain} {w : List Char} (h : SpellsPlain p w) :
    ∃ c cs, w = c :: cs ∧ isSpace c = false := by
  obtain ⟨s, rfl, hs⟩ | hword := h.cases_word
  · cases hs
    exact ⟨_, _, rfl, rfl⟩
  · obtain ⟨c, cs, rfl⟩ := List.exists_cons_of_ne_nil hword.nonempty
    exact ⟨c, cs, rfl, isSpace_of_class ⟨rfl, rfl⟩ (hword.chars c List.mem_cons_self)⟩

/-- A line of a document is read, and the lines after it. -/
theorem SpellsLine.entries?_append {e : String × Plain} {w rest : List Char} (h : SpellsLine e w)
    (hrest : ∀ c ∈ rest.head?, c = '\n') (n : Nat) :
    entries? (n + 1) (w ++ rest) = (entries? n rest.tail).map (e :: ·) := by
  obtain @⟨key, p, w, v, hkey, hp⟩ := h
  have hend : lineEnd? rest = some rest.tail := by
    cases rest with
    | nil => rfl
    | cons c rest =>
      obtain rfl := hrest c rfl
      rfl
  have hvalue := hp.value?_append hrest
  obtain ⟨c, cs, rfl, hc⟩ := hp.exists_eq_cons
  rw [List.append_assoc, List.append_assoc, entries?_of_keyValue (hkey.lineEnd?_append _),
    List.cons_append, hkey.keyValue?_append hc, ← List.cons_append, hvalue, Option.bind_some, hend]
  rfl

theorem GivesOther.entries?_eq_none {key : String} {kind : ValueKind} {text : List Char}
    (h : GivesOther key kind text) (n : Nat) : entries? n text = none := by
  induction h generalizing n with
  | here hkey o =>
    obtain ⟨c, cs, hfront, hc⟩ := o.exists_front_eq
    have hvalue := o.value?_written
    rw [Other.written, hfront, List.cons_append] at hvalue ⊢
    cases n with
    | zero =>
      obtain ⟨d, ds, rfl, -⟩ := hkey.exists_eq_cons
      rfl
    | succ n =>
      rw [entries?_of_keyValue (hkey.lineEnd?_append _),
        hkey.keyValue?_append (isSpace_of_class ⟨rfl, rfl⟩ hc), hvalue]
      rfl
  | @later e key kind w ws h hs ih =>
    cases n with
    | zero =>
      cases hw : w ++ '\n' :: ws with
      | nil => simp at hw
      | cons c cs => rfl
    | succ n =>
      rw [h.entries?_append (by simp) n, List.tail_cons, ih]
      rfl

theorem SpellsLine.length_pos {e : String × Plain} {w : List Char} (h : SpellsLine e w) :
    0 < w.length := by
  cases h
  simp only [keySeparator, List.length_append, List.length_cons]
  omega

theorem SpellsLines.entries?_eq {es : List (String × Plain)} {text : List Char}
    (h : SpellsLines es text) {n : Nat} (hn : text.length ≤ n) : entries? n text = some es := by
  induction h generalizing n with
  | nil => cases n <;> rfl
  | @last e w h =>
    have hw := h.length_pos
    obtain ⟨m, rfl⟩ : ∃ m, n = m + 1 := ⟨n - 1, by omega⟩
    rw [← List.append_nil w, h.entries?_append (by simp) m]
    cases m <;> rfl
  | @cons e es w ws h hs ih =>
    rw [List.length_append, List.length_cons] at hn
    obtain ⟨m, rfl⟩ : ∃ m, n = m + 1 := ⟨n - 1, by omega⟩
    rw [h.entries?_append (by simp) m, List.tail_cons, ih (by omega)]
    rfl

/-! Line ends. Spelled lines have no carriage returns. -/

theorem unifyLineEnds_cons {c : Char} (h : c ≠ '\r') (cs : List Char) :
    unifyLineEnds (c :: cs) = c :: unifyLineEnds cs := by
  rw [unifyLineEnds.eq_def]
  split <;> simp_all

theorem unifyLineEnds_append {a : List Char} (h : '\r' ∉ a) (b : List Char) :
    unifyLineEnds (a ++ b) = a ++ unifyLineEnds b := by
  induction a with
  | nil => rfl
  | cons c a ih =>
    have hc : c ≠ '\r' := fun hc => h (hc ▸ List.mem_cons_self)
    have ha : '\r' ∉ a := fun ha => h (List.mem_cons_of_mem c ha)
    rw [List.cons_append, unifyLineEnds_cons hc, ih ha, List.cons_append]

theorem return_notMem_of_hexValue? {ds : List Char} {acc n : Nat}
    (h : ds.foldlM (fun acc c => (digit? 16 c).map (acc * 16 + ·)) acc = some n) : '\r' ∉ ds := by
  induction ds generalizing acc with
  | nil => exact List.not_mem_nil
  | cons d ds ih =>
    obtain ⟨m, hm, hds⟩ := Option.bind_eq_some_iff.mp h
    rw [List.mem_cons, not_or]
    refine ⟨?_, ih hds⟩
    rintro rfl
    cases hm

theorem return_notMem_of_scalar? {ds : List Char} {c : Char} (h : scalar? ds = some c) :
    '\r' ∉ ds := by
  obtain ⟨n, hn, -⟩ := Option.bind_eq_some_iff.mp h
  exact return_notMem_of_hexValue? hn

theorem SpellsChar.return_notMem {c : Char} {w : List Char} (h : SpellsChar c w) : '\r' ∉ w := by
  cases h with
  | plain h =>
    intro hmem
    cases List.mem_singleton.mp hmem
    cases h
  | @letter e h =>
    have he : '\r' ≠ e := by
      rintro rfl
      cases h
    simp [he]
  | short _ h => simp [return_notMem_of_scalar? h]
  | long _ h => simp [return_notMem_of_scalar? h]

theorem SpellsText.return_notMem {cs w : List Char} (h : SpellsText cs w) : '\r' ∉ w := by
  induction h with
  | nil => exact List.not_mem_nil
  | cons h hs ih => simp [h.return_notMem, ih]

theorem SpellsString.return_notMem {s : String} {w : List Char} (h : SpellsString s w) :
    '\r' ∉ w := by
  obtain ⟨h⟩ := h
  simp [h.return_notMem]

theorem SpellsKey.return_notMem {key : String} {w : List Char} (h : SpellsKey key w) :
    '\r' ∉ w := by
  cases h with
  | bare _ h =>
    intro hmem
    cases h _ hmem
  | quoted h => exact h.return_notMem

theorem SpellsLine.return_notMem {e : String × Plain} {w : List Char} (h : SpellsLine e w) :
    '\r' ∉ w := by
  obtain @⟨key, p, w, v, hkey, hp⟩ := h
  have hvalue : '\r' ∉ v := by
    obtain ⟨s, -, h⟩ | h := hp.cases_word
    · exact h.return_notMem
    · intro hmem
      cases h.chars _ hmem
  simp [hkey.return_notMem, keySeparator, hvalue]

theorem SpellsLines.return_notMem {es : List (String × Plain)} {text : List Char}
    (h : SpellsLines es text) : '\r' ∉ text := by
  induction h with
  | nil => exact List.not_mem_nil
  | last h => exact h.return_notMem
  | cons h hs ih => simp [h.return_notMem, ih]

theorem SpellsLines.unifyLineEnds_eq {es : List (String × Plain)} {text : List Char}
    (h : SpellsLines es text) : unifyLineEnds text = text := by
  have heq := unifyLineEnds_append h.return_notMem []
  rwa [unifyLineEnds, List.append_nil] at heq

/-- A value of another type stays one when the line ends after its front change. -/
theorem GivesOther.unifyLineEnds {key : String} {kind : ValueKind} {text : List Char}
    (h : GivesOther key kind text) : GivesOther key kind (unifyLineEnds text) := by
  induction h with
  | here hkey o =>
    have hfront : '\r' ∉ o.front := by
      intro hmem
      cases o.isFront_of_mem hmem
    rw [unifyLineEnds_append hkey.return_notMem, unifyLineEnds_append (by decide), Other.written,
      unifyLineEnds_append hfront]
    exact .here hkey { o with rest := Toml.unifyLineEnds o.rest }
  | later h hs ih =>
    rw [unifyLineEnds_append h.return_notMem, unifyLineEnds_cons (by decide)]
    exact .later h ih

/-! Documents. -/

theorem SpellsLine.dropMark_append {e : String × Plain} {w : List Char} (h : SpellsLine e w)
    (rest : List Char) : dropMark (w ++ rest) = w ++ rest := by
  obtain ⟨hkey, hp⟩ := h
  rw [List.append_assoc, hkey.dropMark_append]

theorem SpellsLines.dropMark_eq {es : List (String × Plain)} {text : List Char}
    (h : SpellsLines es text) : dropMark text = text := by
  cases h with
  | nil => rfl
  | last h => simpa using h.dropMark_append []
  | cons h hs => exact h.dropMark_append _

theorem GivesOther.dropMark_eq {key : String} {kind : ValueKind} {text : List Char}
    (h : GivesOther key kind text) : dropMark text = text := by
  cases h with
  | here hkey o => exact hkey.dropMark_append _
  | later h hs => exact h.dropMark_append _

/-- The flat reader reads TOML. -/
theorem reads_flatTable : Reads Options.flatTable := by
  have hread {es : List (String × Plain)} {text : String} (h : SpellsLines es text.toList) :
      document? text = some es := by
    rw [document?, h.dropMark_eq, h.unifyLineEnds_eq]
    exact h.entries?_eq (Nat.le_refl _)
  refine ⟨?_, ?_, ?_⟩
  · intro es text h hkeys _
    simp only [Options.flatTable, hread h, table?, hkeys, dite_true]
    exact ⟨_, rfl⟩
  · intro es text t h ht
    simp only [Options.flatTable, hread h, table?] at ht
    split at ht
    · cases ht
    · next heq =>
      split at heq
      · cases heq
        cases ht
        rfl
      · cases heq
  · intro key kind text t h ht
    have hnone : document? text = none := by
      rw [document?, h.dropMark_eq]
      exact h.unifyLineEnds.entries?_eq_none _
    rw [Options.flatTable, hnone] at ht
    cases ht

end StackLowering.Toml
