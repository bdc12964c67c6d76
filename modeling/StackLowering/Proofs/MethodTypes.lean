import Mathlib.Algebra.GroupWithZero.Nat
import StackLowering.Proofs.FaultFree

/-!
Types of methods. A field type is a primitive, a class or an array of field types, and it has one
written form; a method type has the forms of its parameters in parentheses and that of its result
behind them. A scan of such a form takes each parameter in one go, so the effect of an invocation
is what the types say: whatever characters the name of a class holds, they are not read as types.
-/
namespace StackLowering

/-- The primitive types of the machine. -/
inductive Primitive where
  | byte
  | char
  | double
  | float
  | int
  | long
  | short
  | boolean
deriving DecidableEq, Repr

def Primitive.letter : Primitive → Char
  | byte => 'B'
  | char => 'C'
  | double => 'D'
  | float => 'F'
  | int => 'I'
  | long => 'J'
  | short => 'S'
  | boolean => 'Z'

/-- The name of a class as a descriptor holds it: a semicolon would end it. -/
structure ClassName where
  chars : List Char
  unended : ';' ∉ chars
deriving DecidableEq

/-- The types that a field or a parameter can have. -/
inductive FieldType where
  | primitive (p : Primitive)
  | object (className : ClassName)
  | array (element : FieldType)
deriving DecidableEq

namespace FieldType

/-- The written form of a field type. -/
def chars : FieldType → List Char
  | primitive p => [p.letter]
  | object className => 'L' :: (className.chars ++ [';'])
  | array element => '[' :: element.chars

/-- The slots of the operand stack that a value takes. An array is one value, whatever its elements
are. -/
def slots : FieldType → Nat
  | primitive .long | primitive .double => 2
  | _ => 1

end FieldType

/-- What a method gives: nothing, or a value of a field type. -/
inductive ResultType where
  | void
  | value (type : FieldType)
deriving DecidableEq

namespace ResultType

def chars : ResultType → List Char
  | void => ['V']
  | value type => type.chars

def slots : ResultType → Nat
  | void => 0
  | value type => type.slots

end ResultType

structure MethodType where
  parameters : List FieldType
  result : ResultType
deriving DecidableEq

/-- The written form of a method type, which stands at the end of a reference to the method. -/
def MethodType.chars (m : MethodType) : List Char :=
  '(' :: (m.parameters.flatMap FieldType.chars ++ ')' :: m.result.chars)

def MethodType.text (m : MethodType) : String := String.ofList m.chars

namespace Invocation

/-- A scan inside the name of a class goes on behind the semicolon. -/
theorem slotsFrom_className {name : List Char} (h : ';' ∉ name) (rest : List Char) :
    slotsFrom .className (name ++ ';' :: rest) = slotsFrom .fresh rest := by
  induction name with
  | nil => rfl
  | cons c name ih =>
    have hc : c ≠ ';' := by
      intro he
      apply h
      rw [he]
      exact List.mem_cons_self
    have hname : ';' ∉ name := by
      intro hm
      exact h (List.mem_cons_of_mem c hm)
    rw [List.cons_append, slotsFrom, if_neg hc]
    exact ih hname

/-- The elements of an array take no slots, however deep the array is. -/
theorem slotsFrom_element (t : FieldType) (rest : List Char) :
    slotsFrom .element (t.chars ++ rest) = slotsFrom .fresh rest := by
  induction t with
  | primitive p => cases p <;> rfl
  | object className =>
    rw [FieldType.chars, List.cons_append, List.append_assoc]
    exact slotsFrom_className className.unended rest
  | array element ih => exact ih

/-- A scan before a field type takes the slots of the type and goes on behind its form. -/
theorem slotsFrom_fresh (t : FieldType) (rest : List Char) :
    slotsFrom .fresh (t.chars ++ rest) = t.slots + slotsFrom .fresh rest := by
  cases t with
  | primitive p => cases p <;> rfl
  | object className =>
    change 1 + slotsFrom .className (className.chars ++ [';'] ++ rest) = 1 + slotsFrom .fresh rest
    rw [List.append_assoc]
    exact congrArg (1 + ·) (slotsFrom_className className.unended rest)
  | array element =>
    change 1 + slotsFrom .element (element.chars ++ rest) = 1 + slotsFrom .fresh rest
    rw [slotsFrom_element]

theorem parameterSlots_flatMap (ts : List FieldType) :
    parameterSlots (ts.flatMap FieldType.chars) = (ts.map FieldType.slots).sum := by
  induction ts with
  | nil => rfl
  | cons t ts ih =>
    rw [List.flatMap_cons, parameterSlots, slotsFrom_fresh, List.map_cons, List.sum_cons, ← ih]
    rfl

/-- A result is read as a whole, so only the letter of a type itself counts. -/
theorem resultSlots_chars (r : ResultType) : resultSlots r.chars = r.slots := by
  cases r with
  | void => rfl
  | value type =>
    cases type with
    | primitive p => cases p <;> rfl
    | object className =>
      change resultSlots ('L' :: (className.chars ++ [';'])) = 1
      simp [resultSlots]
    | array element =>
      change resultSlots ('[' :: element.chars) = 1
      simp [resultSlots]

/-- The first opening and the last closing parenthesis enclose the parameters. -/
theorem shape_signature {front back : List Char} (hf : '(' ∉ front) (hb : ')' ∉ back)
    (parameters : List Char) :
    shape (front ++ '(' :: (parameters ++ ')' :: back)) = .signature parameters back := by
  have hmem : '(' ∈ front ++ '(' :: (parameters ++ ')' :: back) ∧
      ')' ∈ front ++ '(' :: (parameters ++ ')' :: back) := by simp
  have hclose : ')' ∈ parameters ++ ')' :: back := by simp
  have hreverse : (parameters ++ ')' :: back).reverse =
      back.reverse ++ ')' :: parameters.reverse := by simp
  have hlast : ')' ∉ back.reverse := by
    intro hm
    exact hb (List.mem_reverse.mp hm)
  have hback : ∀ c ∈ back.reverse, decide (c ≠ ')') = true := by
    intro c hc
    apply decide_eq_true
    intro he
    exact hlast (he ▸ hc)
  simp only [shape, if_pos hmem, tail_dropWhile_of_notMem hf, if_pos hclose, hreverse,
    tail_dropWhile_of_notMem hlast]
  rw [List.takeWhile_append_of_pos hback, List.takeWhile_cons_of_neg (by simp), List.append_nil,
    List.reverse_reverse, List.reverse_reverse]

/-- The effect of invoking a method is what its type says: the slots of the result, less those of
the parameters and one for a receiver. It depends on nothing that stands before the type, nor on
the names of classes inside it, in which letters, brackets and parentheses have no meaning. -/
theorem effect_eq_of_methodType {front : String} {m : MethodType} (hf : '(' ∉ front.toList)
    (hr : ')' ∉ m.result.chars) (receiver : Bool) :
    effect? (front ++ m.text) receiver =
      some ((m.result.slots : Int) - ((m.parameters.map FieldType.slots).sum : Nat) -
        if receiver then 1 else 0) := by
  have htext : (front ++ m.text).toList = front.toList ++ m.chars := by
    rw [String.toList_append, MethodType.text, String.toList_ofList]
  have hshape : shape (front ++ m.text).toList =
      .signature (m.parameters.flatMap FieldType.chars) m.result.chars := by
    rw [htext]
    exact shape_signature hf hr _
  rw [effect?, hshape]
  simp only [resultSlots_chars, parameterSlots_flatMap]

/-- A method that takes an array of arrays of longs, an object whose class is named `a)(JD[/B`, and
a double, and gives an array of doubles. -/
theorem effect_eq_of_tangled_methodType :
    effect? "p/Q.f([[JLa)(JD[/B;D)[D" true = some (1 - (1 + 1 + 2) - 1) ∧
      effect? "p/Q.f([[JLa)(JD[/B;D)[D" false = some (1 - (1 + 1 + 2)) := by
  let m : MethodType :=
    { parameters :=
        [.array (.array (.primitive .long)), .object ⟨"a)(JD[/B".toList, by decide⟩,
          .primitive .double]
      result := .value (.array (.primitive .double)) }
  have hreference : "p/Q.f([[JLa)(JD[/B;D)[D" = "p/Q.f" ++ m.text := by decide
  have hf : '(' ∉ "p/Q.f".toList := by decide
  have hr : ')' ∉ m.result.chars := by decide
  rw [hreference]
  exact ⟨effect_eq_of_methodType hf hr true, effect_eq_of_methodType hf hr false⟩

end Invocation

end StackLowering
