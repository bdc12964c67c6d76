import StackLowering.Toml.Text

/-!
Integers of TOML 1.0: decimal with an optional sign and no leading zero, or hexadecimal, octal or
binary without a sign. An underscore may stand between two digits.
-/
namespace StackLowering.Toml

/-- Further digits after a value read so far. -/
def digitsFrom (base acc : Nat) : List Char → Option Nat
  | [] => some acc
  | '_' :: c :: cs => (digit? base c).bind fun d => digitsFrom base (acc * base + d) cs
  | c :: cs => (digit? base c).bind fun d => digitsFrom base (acc * base + d) cs

def digits? (base : Nat) : List Char → Option Nat
  | [] => none
  | c :: cs => (digit? base c).bind fun d => digitsFrom base d cs

def decimal? : List Char → Option Nat
  | ['0'] => some 0
  | '0' :: _ => none
  | cs => digits? 10 cs

def integer? : List Char → Option Int
  | '0' :: 'x' :: cs => (digits? 16 cs).map Int.ofNat
  | '0' :: 'o' :: cs => (digits? 8 cs).map Int.ofNat
  | '0' :: 'b' :: cs => (digits? 2 cs).map Int.ofNat
  | '+' :: cs => (decimal? cs).map Int.ofNat
  | '-' :: cs => (decimal? cs).map fun n => -Int.ofNat n
  | cs => (decimal? cs).map Int.ofNat

example : integer? "1_000".toList = some 1000 := by decide
example : integer? "0xFf_0".toList = some 4080 := by decide
example : integer? "-0".toList = some 0 := by decide
example : integer? "007".toList = none := by decide
example : integer? "1__0".toList = none := by decide

end StackLowering.Toml
