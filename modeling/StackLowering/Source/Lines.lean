import StackLowering.Text.Pieces

/-!
Lines of a source text. A line ends at a line feed, and a carriage return right before the line
feed belongs to the line's end. Lines are numbered from one and looked up without the white space
at their ends.
-/
namespace StackLowering.Source

/-- The characters with the Unicode property `White_Space`. -/
def isBlank (c : Char) : Bool :=
  let n := c.toNat
  (0x09 ≤ n && n ≤ 0x0D) || n == 0x20 || n == 0x85 || n == 0xA0 || n == 0x1680 ||
    (0x2000 ≤ n && n ≤ 0x200A) || n == 0x2028 || n == 0x2029 || n == 0x202F || n == 0x205F ||
    n == 0x3000

/-- A text without the white space at its two ends. -/
def trim (cs : List Char) : List Char :=
  ((cs.dropWhile isBlank).reverse.dropWhile isBlank).reverse

/-- A line ended by a line feed loses one carriage return before it. -/
def dropReturn (line : List Char) : List Char :=
  if line.getLast? = some '\r' then line.dropLast else line

/-- The lines of a text: every piece but the last is ended, and an empty last piece is no line. -/
def lines (cs : List Char) : List (List Char) :=
  let ps := Text.pieces '\n' cs
  ps.dropLast.map dropReturn ++ ps.getLast?.toList.filter (· ≠ [])

/-- Line `n` of a text, counted from one and trimmed. -/
def line? (text : String) (n : Nat) : Option String :=
  if n = 0 then none else (lines text.toList)[n - 1]?.map fun l => String.ofList (trim l)

theorem line?_zero (text : String) : line? text 0 = none := rfl

example : lines "a\r\nb\n".toList = ["a".toList, "b".toList] := by decide
example : lines "a\n\nb".toList = ["a".toList, [], "b".toList] := by decide
example : trim " \t x y ".toList = "x y".toList := by decide

end StackLowering.Source
