/-!
Source positions. A span has a line, a first column and a length, each a 32-bit word; line 0 marks
a node whose position is not known. Joining two spans is partial: `join?` is `none` when a sum of
two words does not fit in a word.
-/
namespace StackLowering

/-- Where a construction stands before it has a length. -/
structure Position where
  line : UInt32
  col : UInt32
deriving DecidableEq, Repr, Inhabited

structure Span where
  line : UInt32
  col : UInt32
  len : UInt32
deriving DecidableEq, Repr, Inhabited

/-- The sum of two words, if it is a word again. -/
def wordSum? (a b : UInt32) : Option UInt32 :=
  if a.toNat + b.toNat < UInt32.size then some (a + b) else none

theorem wordSum?_eq_some {a b : UInt32} (h : a.toNat + b.toNat < UInt32.size) :
    wordSum? a b = some (a + b) := if_pos h

namespace Span

/-- The span of everything that has no place in the source. -/
def nowhere : Span := ⟨0, 0, 0⟩

def point (line col : UInt32) : Span := ⟨line, col, 0⟩

def ofPosition (p : Position) : Span := point p.line p.col

def known (s : Span) : Bool := s.line != 0

/-- A span is shown as its line and column only. -/
def text (s : Span) : String := s!"{s.line}:{s.col}"

/-- The column after the last one, if it is a word. -/
def stop? (s : Span) : Option UInt32 := wordSum? s.col s.len

/-- On one line, the least interval that holds both spans. Across lines, the start of the first
span with both lengths. -/
def join? (s t : Span) : Option Span :=
  if s.line = t.line then do
    let a ← s.stop?
    let b ← t.stop?
    let first := min s.col t.col
    some ⟨s.line, first, max a b - first⟩
  else do
    let len ← wordSum? s.len t.len
    some ⟨s.line, s.col, len⟩

example : join? ⟨3, 4, 2⟩ ⟨3, 9, 1⟩ = some ⟨3, 4, 6⟩ := by decide
example : join? ⟨3, 4, 2⟩ ⟨4, 1, 5⟩ = some ⟨3, 4, 7⟩ := by decide
example : join? ⟨1, 1, 4294967295⟩ ⟨1, 1, 1⟩ = none := by decide

end Span

end StackLowering
