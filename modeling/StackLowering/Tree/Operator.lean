/-!
Binary operators. Arithmetic operators have a value; relations only decide a branch.
-/
namespace StackLowering

inductive Arithmetic where
  | add
  | sub
  | mul
  | div
deriving DecidableEq, Repr

inductive Relation where
  | gt
  | lt
  | ge
  | le
  | eq
  | ne
deriving DecidableEq, Repr

inductive Operator where
  | arithmetic (op : Arithmetic)
  | relation (rel : Relation)
deriving DecidableEq, Repr

def Arithmetic.symbol : Arithmetic → String
  | add => "+"
  | sub => "-"
  | mul => "*"
  | div => "/"

def Relation.symbol : Relation → String
  | gt => ">"
  | lt => "<"
  | ge => ">="
  | le => "<="
  | eq => "=="
  | ne => "!="

namespace Operator

def symbol : Operator → String
  | arithmetic op => op.symbol
  | relation rel => rel.symbol

def isComparison : Operator → Bool
  | arithmetic _ => false
  | relation _ => true

def all : List Operator :=
  [.arithmetic .add, .arithmetic .sub, .arithmetic .mul, .arithmetic .div, .relation .gt,
    .relation .lt, .relation .ge, .relation .le, .relation .eq, .relation .ne]

/-- The operator with a given symbol. -/
def ofSymbol? (symbol : String) : Option Operator := all.find? (·.symbol = symbol)

end Operator

end StackLowering
