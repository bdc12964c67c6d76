import StackLowering.Tree.Operator
import StackLowering.Tree.Tag

/-!
Operation codes of the stack machine, with the three placeholders that stand where no operation
fits the operands. Each has a mnemonic and, unless it is an invocation, a fixed effect on the depth
of the operand stack.
-/
namespace StackLowering

inductive Opcode where
  | ldc
  | getStatic
  | putStatic
  | arith (kind : Numeric) (op : Arithmetic)
  | neg (kind : Numeric)
  /-- Compare two integers and jump. -/
  | ifCompare (rel : Relation)
  | fcmpl
  | fcmpg
  /-- Compare one integer with zero and jump. -/
  | ifZero (rel : Relation)
  | goto
  | new
  | dup
  | pop
  | aload0
  | invokeNonVirtual
  | invokeVirtual
  | invokeStatic
  | anewarray
  | aastore
  | ret
  | unresolved
  | unresolvedBranch
  | unresolvedNeg
deriving DecidableEq, Repr

def Numeric.letter : Numeric → String
  | int => "i"
  | float => "f"

def Arithmetic.mnemonic : Arithmetic → String
  | add => "add"
  | sub => "sub"
  | mul => "mul"
  | div => "div"

def Relation.mnemonic : Relation → String
  | gt => "gt"
  | lt => "lt"
  | ge => "ge"
  | le => "le"
  | eq => "eq"
  | ne => "ne"

namespace Opcode

def mnemonic : Opcode → String
  | ldc => "ldc"
  | getStatic => "getstatic"
  | putStatic => "putstatic"
  | arith kind op => kind.letter ++ op.mnemonic
  | neg kind => kind.letter ++ "neg"
  | ifCompare rel => "if_icmp" ++ rel.mnemonic
  | fcmpl => "fcmpl"
  | fcmpg => "fcmpg"
  | ifZero rel => "if" ++ rel.mnemonic
  | goto => "goto"
  | new => "new"
  | dup => "dup"
  | pop => "pop"
  | aload0 => "aload_0"
  | invokeNonVirtual => "invokenonvirtual"
  | invokeVirtual => "invokevirtual"
  | invokeStatic => "invokestatic"
  | anewarray => "anewarray"
  | aastore => "aastore"
  | ret => "return"
  | unresolved => "????"
  | unresolvedBranch => "????"
  | unresolvedNeg => "?neg"

/-- The change of the operand stack's depth; an invocation has none of its own, since it depends on
the method. -/
def effect? : Opcode → Option Int
  | ldc | getStatic | new | dup | aload0 => some 1
  | putStatic | pop | arith _ _ | fcmpl | fcmpg | ifZero _ | unresolved => some (-1)
  | ifCompare _ | unresolvedBranch => some (-2)
  | aastore => some (-3)
  | neg _ | goto | anewarray | ret | unresolvedNeg => some 0
  | invokeNonVirtual | invokeVirtual | invokeStatic => none

/-- The fixed effect, with nothing counted for an invocation. -/
def effect (op : Opcode) : Int := op.effect?.getD 0

def isBranch : Opcode → Bool
  | ifCompare _ | ifZero _ | goto | unresolvedBranch => true
  | _ => false

def isPlaceholder : Opcode → Bool
  | unresolved | unresolvedBranch | unresolvedNeg => true
  | _ => false

/-- What stands between a mnemonic and its operand. -/
def separator : Opcode → String
  | ldc | getStatic | putStatic | anewarray | invokeStatic => "\t"
  | _ => " "

end Opcode

end StackLowering
