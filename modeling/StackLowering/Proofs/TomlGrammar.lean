import StackLowering.Toml.Document

/-!
Documents of lines `key = value` as TOML 1.0 has them. The grammar tells how keys, strings, decimal
integers and booleans are spelled; of a value of any other type it tells only the front, from which
its type is known. A reader of TOML is any function that agrees with the grammar. The writer gives
every entry a line, escapes only the characters that need it, and spells what it was given.
-/
namespace StackLowering.Toml

/-- Types of values. -/
inductive ValueKind where
  | text
  | integer
  | boolean
  | float
  | dateTime
  | array
  | table
deriving DecidableEq, Repr

def Plain.kind : Plain → ValueKind
  | text _ => .text
  | integer _ => .integer
  | boolean _ => .boolean

def Value.kind : Value → ValueKind
  | plain p => p.kind
  | float _ => .float
  | dateTime _ => .dateTime
  | array _ => .array
  | table _ => .table

/-! The grammar. -/

/-- How a character stands in a basic string: as it is, or as one of the three kinds of escape. -/
inductive SpellsChar : Char → List Char → Prop where
  | plain {c : Char} (h : isBasic c = true) : SpellsChar c [c]
  | letter {c e : Char} (h : shortEscape? e = some c) : SpellsChar c ['\\', e]
  | short {c : Char} {ds : List Char} (hlength : ds.length = 4) (h : scalar? ds = some c) :
      SpellsChar c ('\\' :: 'u' :: ds)
  | long {c : Char} {ds : List Char} (hlength : ds.length = 8) (h : scalar? ds = some c) :
      SpellsChar c ('\\' :: 'U' :: ds)

/-- The characters of a text one after another. -/
inductive SpellsText : List Char → List Char → Prop where
  | nil : SpellsText [] []
  | cons {c : Char} {cs w ws : List Char} (h : SpellsChar c w) (hs : SpellsText cs ws) :
      SpellsText (c :: cs) (w ++ ws)

/-- A basic string on one line. -/
inductive SpellsString : String → List Char → Prop where
  | intro {s : String} {w : List Char} (h : SpellsText s.toList w) :
      SpellsString s ('"' :: (w ++ ['"']))

/-- The digits of a natural number, where only zero itself begins with a zero. -/
structure IsNumeral (ds : List Char) : Prop where
  nonempty : ds ≠ []
  digits : ∀ c ∈ ds, c.isDigit = true
  lead : ds.head? = some '0' → ds = ['0']

inductive SpellsPlain : Plain → List Char → Prop where
  | text {s : String} {w : List Char} (h : SpellsString s w) : SpellsPlain (.text s) w
  | unsigned {ds : List Char} (h : IsNumeral ds) :
      SpellsPlain (.integer (Nat.ofDigitChars 10 ds 0)) ds
  | positive {ds : List Char} (h : IsNumeral ds) :
      SpellsPlain (.integer (Nat.ofDigitChars 10 ds 0)) ('+' :: ds)
  | negative {ds : List Char} (h : IsNumeral ds) :
      SpellsPlain (.integer (-Nat.ofDigitChars 10 ds 0)) ('-' :: ds)
  | boolean (b : Bool) : SpellsPlain (.boolean b) (toString b).toList

inductive SpellsKey : String → List Char → Prop where
  | bare {key : String} (hne : key.toList ≠ []) (h : ∀ c ∈ key.toList, isBareKey c = true) :
      SpellsKey key key.toList
  | quoted {key : String} {w : List Char} (h : SpellsString key w) : SpellsKey key w

/-- What stands between a key and its value. -/
def keySeparator : List Char := [' ', '=', ' ']

inductive SpellsLine : String × Plain → List Char → Prop where
  | intro {key : String} {p : Plain} {w v : List Char} (hkey : SpellsKey key w)
      (hp : SpellsPlain p v) : SpellsLine (key, p) (w ++ (keySeparator ++ v))

/-- Lines with line feeds between them. The last line may have one too. -/
inductive SpellsLines : List (String × Plain) → List Char → Prop where
  | nil : SpellsLines [] []
  | last {e : String × Plain} {w : List Char} (h : SpellsLine e w) : SpellsLines [e] w
  | cons {e : String × Plain} {es : List (String × Plain)} {w ws : List Char}
      (h : SpellsLine e w) (hs : SpellsLines es ws) : SpellsLines (e :: es) (w ++ '\n' :: ws)

def isNumeric (c : Char) : Bool := c.isDigit || c == '_'

/-- A value of another type as far as its first characters tell. An array and an inline table begin
with a bracket, the floats that are no numbers with their names. A number goes on after some digits
with a mark that no integer has. -/
structure Other where
  sign : List Char
  digits : List Char
  mark : Char
  rest : List Char
  sign_mem : sign ∈ [[], ['+'], ['-']]
  digits_all : digits.all isNumeric = true
  mark_mem : mark ∈ if digits = [] then ['[', '\x7b', 'i', 'n'] else ['.', 'e', 'E', '-', ':']

namespace Other

/-- The type that the front of a value shows. -/
def kind (o : Other) : ValueKind :=
  match o.mark with
  | '[' => .array
  | '\x7b' => .table
  | '-' | ':' => .dateTime
  | _ => .float

theorem kind_ne (o : Other) (p : Plain) : p.kind ≠ o.kind := by
  unfold kind
  split <;> cases p <;> nofun

def front (o : Other) : List Char := o.sign ++ (o.digits ++ [o.mark])

def written (o : Other) : List Char := o.front ++ o.rest

end Other

/-- A text that gives a key a value of another type, after lines with plain values. What follows the
front of that value is open. -/
inductive GivesOther : String → ValueKind → List Char → Prop where
  | here {key : String} {w : List Char} (hkey : SpellsKey key w) (o : Other) :
      GivesOther key o.kind (w ++ (keySeparator ++ o.written))
  | later {e : String × Plain} {key : String} {kind : ValueKind} {w ws : List Char}
      (h : SpellsLine e w) (hs : GivesOther key kind ws) : GivesOther key kind (w ++ '\n' :: ws)

/-- Integers of 64 bits are those that every reader has to accept. -/
def Plain.InRange : Plain → Prop
  | integer n => Int64.minValue.toInt ≤ n ∧ n ≤ Int64.maxValue.toInt
  | _ => True

/-- A function that reads TOML 1.0, as far as the grammar tells. -/
structure Reads {ε : Type} (parse : String → Except ε Table) : Prop where
  /-- Lines with different keys and with integers of 64 bits are accepted. -/
  accepts {es : List (String × Plain)} {text : String} (h : SpellsLines es text.toList)
    (hkeys : (es.map Prod.fst).Nodup) (hrange : ∀ e ∈ es, e.2.InRange) : ∃ t, parse text = .ok t
  /-- If lines are accepted, the table has their entries and no others. -/
  faithful {es : List (String × Plain)} {text : String} {t : Table}
    (h : SpellsLines es text.toList) (ht : parse text = .ok t) :
    t.entries.Perm (es.map plainEntry)
  /-- If a value of another type is accepted, it has the type that its front shows. -/
  typed {key : String} {kind : ValueKind} {text : String} {t : Table}
    (h : GivesOther key kind text.toList) (ht : parse text = .ok t) :
    ∃ v, (key, v) ∈ t.entries ∧ v.kind = kind

/-! The writer. -/

/-- How the writer spells a character. -/
def escape (c : Char) : List Char :=
  match c with
  | '"' => ['\\', '"']
  | '\\' => ['\\', '\\']
  | '\x08' => ['\\', 'b']
  | '\n' => ['\\', 'n']
  | '\x0C' => ['\\', 'f']
  | '\r' => ['\\', 'r']
  | c =>
    if (c.toNat < 0x20 ∧ c ≠ '\t') ∨ c.toNat = 0x7F then
      ['\\', 'u', '0', '0', Nat.digitChar (c.toNat / 16), Nat.digitChar (c.toNat % 16)]
    else [c]

theorem scalar?_digitChar : ∀ n < 0x80,
    scalar? ['0', '0', Nat.digitChar (n / 16), Nat.digitChar (n % 16)] = some (Char.ofNat n) := by
  decide

theorem spellsChar_escape (c : Char) : SpellsChar c (escape c) := by
  unfold escape
  split
  case h_7 hquote hslash _ _ _ _ =>
    split
    · next hc =>
      have hscalar := scalar?_digitChar c.toNat (by omega)
      rw [Char.ofNat_toNat] at hscalar
      exact .short rfl hscalar
    · next hc =>
      apply SpellsChar.plain
      simp only [isBasic, isControl, Bool.and_eq_true, Bool.not_eq_true', bne_iff_ne]
      refine ⟨⟨?_, hquote⟩, hslash⟩
      simpa using hc
  all_goals exact .letter rfl

theorem spellsText_escape (cs : List Char) : SpellsText cs (cs.flatMap escape) := by
  induction cs with
  | nil => exact .nil
  | cons c cs ih => exact .cons (spellsChar_escape c) ih

def quoted (s : String) : List Char := '"' :: (s.toList.flatMap escape ++ ['"'])

theorem spellsString_quoted (s : String) : SpellsString s (quoted s) :=
  .intro (spellsText_escape s.toList)

/-- Only zero is written with a zero in front. -/
theorem exists_toDigits_eq {n : Nat} (h : 0 < n) :
    ∃ c cs, Nat.toDigits 10 n = c :: cs ∧ c ≠ '0' := by
  induction n using Nat.strongRecOn with
  | ind n ih =>
    by_cases hn : n < 10
    · refine ⟨_, [], Nat.toDigits_of_lt_base hn, ?_⟩
      simpa using Nat.ne_of_gt h
    · obtain ⟨c, cs, hcs, hc⟩ := ih (n / 10) (by omega) (by omega)
      exact ⟨c, _, by rw [Nat.toDigits_of_base_le (by decide) (by omega), hcs]; rfl, hc⟩

theorem isNumeral_toDigits (n : Nat) : IsNumeral (Nat.toDigits 10 n) where
  nonempty := Nat.toDigits_ne_nil
  digits c hc := Nat.isDigit_of_mem_toDigits (by decide) (by decide) hc
  lead h := by
    obtain rfl | hn := Nat.eq_zero_or_pos n
    · rfl
    · obtain ⟨c, cs, hcs, hc⟩ := exists_toDigits_eq hn
      rw [hcs] at h
      exact absurd (Option.some.inj h) hc

/-- An integer in decimal. -/
def decimal (n : Int) : List Char :=
  if n < 0 then '-' :: Nat.toDigits 10 n.natAbs else Nat.toDigits 10 n.natAbs

theorem spellsPlain_decimal (n : Int) : SpellsPlain (.integer n) (decimal n) := by
  have hds := isNumeral_toDigits n.natAbs
  have hvalue : Nat.ofDigitChars 10 (Nat.toDigits 10 n.natAbs) 0 = n.natAbs :=
    Nat.ofDigitChars_ten_toDigits
  unfold decimal
  split
  · next hneg =>
    have h := SpellsPlain.negative hds
    rwa [hvalue, show -(n.natAbs : Int) = n by omega] at h
  · next hpos =>
    have h := SpellsPlain.unsigned hds
    rwa [hvalue, show (n.natAbs : Int) = n by omega] at h

/-- A value in a document, of any type. -/
inductive Item where
  | plain (p : Plain)
  | other (o : Other)

namespace Item

def kind : Item → ValueKind
  | plain p => p.kind
  | other o => o.kind

def written : Item → List Char
  | plain (.text s) => quoted s
  | plain (.integer n) => decimal n
  | plain (.boolean b) => (toString b).toList
  | other o => o.written

end Item

theorem spellsPlain_written (p : Plain) : SpellsPlain p (Item.plain p).written := by
  cases p with
  | text s => exact .text (spellsString_quoted s)
  | integer n => exact spellsPlain_decimal n
  | boolean b => exact .boolean b

/-- A key is bare where it can be. -/
def writtenKey (key : String) : List Char :=
  if key.toList ≠ [] ∧ key.toList.all isBareKey then key.toList else quoted key

theorem spellsKey_writtenKey (key : String) : SpellsKey key (writtenKey key) := by
  unfold writtenKey
  split
  · next h => exact .bare h.1 (List.all_eq_true.mp h.2)
  · exact .quoted (spellsString_quoted key)

def line (e : String × Item) : List Char := writtenKey e.1 ++ (keySeparator ++ e.2.written)

/-- Lines with line feeds between them. The last line has one too if the text is closed. -/
def lines (closed : Bool) : List (String × Item) → List Char
  | [] => []
  | [e] => line e ++ if closed then ['\n'] else []
  | e :: f :: es => line e ++ '\n' :: lines closed (f :: es)

/-- The text of a document with the given entries. -/
def write (closed : Bool) (es : List (String × Item)) : String := String.ofList (lines closed es)

example : write true [("a b", .plain (.text "\t\x7F\"\n")), ("n", .plain (.integer (-7)))] =
    "\"a b\" = \"\t\\u007f\\\"\\n\"\nn = -7\n" := by decide

def plainItem (e : String × Plain) : String × Item := (e.1, .plain e.2)

theorem spellsLine_line (e : String × Plain) : SpellsLine e (line (plainItem e)) :=
  .intro (spellsKey_writtenKey e.1) (spellsPlain_written e.2)

theorem spellsLines_lines (closed : Bool) (es : List (String × Plain)) :
    SpellsLines es (lines closed (es.map plainItem)) := by
  induction es with
  | nil => exact .nil
  | cons e es ih =>
    cases es with
    | nil =>
      have he := spellsLine_line e
      cases closed with
      | false => simpa [lines] using SpellsLines.last he
      | true => exact .cons he .nil
    | cons f es => exact .cons (spellsLine_line e) ih

theorem exists_lines_eq (closed : Bool) (e : String × Item) (es : List (String × Item)) :
    ∃ rest, lines closed (e :: es) = line e ++ rest ∧
      (es ≠ [] → rest = '\n' :: lines closed es) := by
  cases es with
  | nil => exact ⟨_, rfl, nofun⟩
  | cons f es => exact ⟨_, rfl, fun _ => rfl⟩

/-- Written lines either have plain values only or give some key a value of another type. -/
theorem lines_cases (closed : Bool) (es : List (String × Item)) :
    (∃ ps : List (String × Plain), es = ps.map plainItem) ∨
      ∃ key o, (key, .other o) ∈ es ∧ GivesOther key o.kind (lines closed es) := by
  induction es with
  | nil => exact .inl ⟨[], rfl⟩
  | cons e es ih =>
    obtain ⟨key, item⟩ := e
    obtain ⟨rest, hlines, hrest⟩ := exists_lines_eq closed (key, item) es
    cases item with
    | other o =>
      -- Whatever follows on later lines is part of the open rest.
      have hhere := GivesOther.here (spellsKey_writtenKey key) { o with rest := o.rest ++ rest }
      refine .inr ⟨key, o, List.mem_cons_self, ?_⟩
      rw [hlines]
      simpa [line, Item.written, Other.written, Other.front, Other.kind] using hhere
    | plain p =>
      obtain ⟨ps, rfl⟩ | ⟨key', o, hmem, hother⟩ := ih
      · exact .inl ⟨(key, p) :: ps, rfl⟩
      · refine .inr ⟨key', o, List.mem_cons_of_mem _ hmem, ?_⟩
        rw [hlines, hrest (List.ne_nil_of_mem hmem)]
        exact .later (spellsLine_line (key, p)) hother

end StackLowering.Toml
