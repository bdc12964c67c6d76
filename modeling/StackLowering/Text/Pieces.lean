/-!
A text cut at every occurrence of one character. There is always one piece more than cuts, so pieces
may be empty.
-/
namespace StackLowering.Text

/-- Put a character in front of the first piece. -/
def extendHead (c : Char) : List (List Char) → List (List Char)
  | [] => [[c]]
  | p :: ps => (c :: p) :: ps

def pieces (sep : Char) : List Char → List (List Char)
  | [] => [[]]
  | c :: cs => if c = sep then [] :: pieces sep cs else extendHead c (pieces sep cs)

theorem pieces_ne_nil (sep : Char) (cs : List Char) : pieces sep cs ≠ [] := by
  cases cs with
  | nil => simp [pieces]
  | cons c cs =>
    unfold pieces
    split
    · simp
    · cases pieces sep cs <;> simp [extendHead]

end StackLowering.Text
