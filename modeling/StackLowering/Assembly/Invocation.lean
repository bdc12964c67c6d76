/-!
The effect of an invocation on the depth of the operand stack, read off the method's reference.
Parameters stand between the first opening and the last closing parenthesis, the result after it.
-/
namespace StackLowering.Invocation

/-- How far a scan of parameter descriptors has come. -/
inductive Scan where
  /-- Before a descriptor. -/
  | fresh
  /-- Inside a class name, up to its semicolon. -/
  | className
  /-- After the brackets of an array, before its element. -/
  | element
deriving DecidableEq, Repr

/-- Slots that parameters take: two for each long or double, one for anything else. A class name or
an array that is cut off still counts. -/
def slotsFrom : Scan → List Char → Nat
  | _, [] => 0
  | .fresh, c :: cs =>
    if c = 'J' ∨ c = 'D' then 2 + slotsFrom .fresh cs
    else if c = 'L' then 1 + slotsFrom .className cs
    else if c = '[' then 1 + slotsFrom .element cs
    else 1 + slotsFrom .fresh cs
  | .className, c :: cs => slotsFrom (if c = ';' then .fresh else .className) cs
  | .element, c :: cs =>
    slotsFrom (if c = '[' then .element else if c = 'L' then .className else .fresh) cs

def parameterSlots (cs : List Char) : Nat := slotsFrom .fresh cs

def resultSlots (cs : List Char) : Nat :=
  if cs = ['V'] then 0 else if cs = ['J'] ∨ cs = ['D'] then 2 else 1

/-- A method reference as its parentheses divide it. -/
inductive Shape where
  /-- One of the two parentheses is missing. -/
  | bare
  /-- The first opening parenthesis comes after the last closing one. -/
  | crossed
  | signature (parameters result : List Char)
deriving DecidableEq, Repr

def shape (cs : List Char) : Shape :=
  if '(' ∈ cs ∧ ')' ∈ cs then
    let inner := (cs.dropWhile (· ≠ '(')).tail
    if ')' ∈ inner then
      let back := inner.reverse
      .signature (back.dropWhile (· ≠ ')')).tail.reverse (back.takeWhile (· ≠ ')')).reverse
    else .crossed
  else .bare

/-- The change of depth when a method is invoked, with one more slot popped for a receiver. A
reference without parentheses changes nothing; one with crossed parentheses has no effect. -/
def effect? (method : String) (receiver : Bool) : Option Int :=
  match shape method.toList with
  | .bare => some 0
  | .crossed => none
  | .signature ps r =>
    some ((resultSlots r : Int) - (parameterSlots ps : Int) - (if receiver then 1 else 0))

example : shape "f(I)V".toList = .signature ['I'] ['V'] := by decide
example : shape ")(".toList = .crossed := by decide
example : parameterSlots "J[[DLa/B;I".toList = 5 := by decide

end StackLowering.Invocation
