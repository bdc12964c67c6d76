/-!
The four string forms of TOML 1.0: basic and literal, each on one line or on several. Readers take
the characters after an opening delimiter and give the text with what follows the closing one. They
expect line ends to be single line feeds.
-/
namespace StackLowering.Toml

def isSpace (c : Char) : Bool := c == ' ' || c == '\t'

/-- Control characters other than the tab, which TOML allows nowhere but in line ends. -/
def isControl (c : Char) : Bool := (c.toNat < 0x20 && c != '\t') || c.toNat == 0x7F

def skipSpaces (cs : List Char) : List Char := cs.dropWhile isSpace

/-- The value of a digit, in a base up to sixteen. -/
def digit? (base : Nat) (c : Char) : Option Nat :=
  let n := c.toNat
  let d :=
    if 0x30 ≤ n ∧ n ≤ 0x39 then n - 0x30
    else if 0x61 ≤ n ∧ n ≤ 0x66 then n - 0x61 + 10
    else if 0x41 ≤ n ∧ n ≤ 0x46 then n - 0x41 + 10
    else base
  if d < base then some d else none

def hexValue? (cs : List Char) : Option Nat :=
  cs.foldlM (fun acc c => (digit? 16 c).map (acc * 16 + ·)) 0

/-- The character with a code in hexadecimal digits, if it is a Unicode scalar value. -/
def scalar? (cs : List Char) : Option Char := do
  let n ← hexValue? cs
  if n.isValidChar then some (Char.ofNat n) else none

/-- The escapes of one letter. -/
def shortEscape? : Char → Option Char
  | 'b' => some '\x08'
  | 't' => some '\t'
  | 'n' => some '\n'
  | 'f' => some '\x0C'
  | 'r' => some '\r'
  | '"' => some '"'
  | '\\' => some '\\'
  | _ => none

/-- Whether a character stands for itself in a basic string. -/
def isBasic (c : Char) : Bool := !isControl c && c != '"' && c != '\\'

/-- Whether a character stands for itself in a literal string. -/
def isLiteral (c : Char) : Bool := !isControl c && c != '\''

/-- Put a character in front of a text that was read. -/
def push (c : Char) (read : Option (List Char × List Char)) : Option (List Char × List Char) :=
  read.map fun r => (c :: r.1, r.2)

/-- Put an escaped character in front of a text that was read. -/
def push? (c : Option Char) (read : Option (List Char × List Char)) :
    Option (List Char × List Char) :=
  c.bind (push · read)

def basicBody : List Char → Option (List Char × List Char)
  | [] => none
  | '"' :: rest => some ([], rest)
  | '\\' :: 'u' :: a :: b :: c :: d :: rest => push? (scalar? [a, b, c, d]) (basicBody rest)
  | '\\' :: 'U' :: a :: b :: c :: d :: e :: f :: g :: h :: rest =>
    push? (scalar? [a, b, c, d, e, f, g, h]) (basicBody rest)
  | '\\' :: c :: rest => push? (shortEscape? c) (basicBody rest)
  | c :: rest => if isBasic c then push c (basicBody rest) else none

def literalBody : List Char → Option (List Char × List Char)
  | [] => none
  | '\'' :: rest => some ([], rest)
  | c :: rest => if isLiteral c then push c (literalBody rest) else none

/-- Where a reader stands in a line that is continued by a backslash at its end. -/
inductive Continuation where
  /-- Not in such a place. -/
  | none
  /-- After the backslash, where only spaces and the line's end may follow. -/
  | awaited
  /-- After that line's end, where spaces and line ends are dropped. -/
  | dropping
deriving DecidableEq, Repr

/-- Up to two quotes may stand inside and right before the closing three. -/
def basicLines : Continuation → List Char → Option (List Char × List Char)
  | _, [] => .none
  | .awaited, c :: rest =>
    if c = '\n' then basicLines .dropping rest
    else if isSpace c then basicLines .awaited rest
    else .none
  | _, '"' :: '"' :: '"' :: '"' :: '"' :: rest => some (['"', '"'], rest)
  | _, '"' :: '"' :: '"' :: '"' :: rest => some (['"'], rest)
  | _, '"' :: '"' :: '"' :: rest => some ([], rest)
  | _, '"' :: rest => push '"' (basicLines .none rest)
  | _, '\\' :: 'u' :: a :: b :: c :: d :: rest =>
    push? (scalar? [a, b, c, d]) (basicLines .none rest)
  | _, '\\' :: 'U' :: a :: b :: c :: d :: e :: f :: g :: h :: rest =>
    push? (scalar? [a, b, c, d, e, f, g, h]) (basicLines .none rest)
  | _, '\\' :: c :: rest =>
    if c = '\n' then basicLines .dropping rest
    else if isSpace c then basicLines .awaited rest
    else push? (shortEscape? c) (basicLines .none rest)
  | k, c :: rest =>
    if k = .dropping ∧ (c = '\n' ∨ isSpace c) then basicLines .dropping rest
    else if c = '\n' ∨ isBasic c then push c (basicLines .none rest)
    else .none

def literalLines : List Char → Option (List Char × List Char)
  | [] => none
  | '\'' :: '\'' :: '\'' :: '\'' :: '\'' :: rest => some (['\'', '\''], rest)
  | '\'' :: '\'' :: '\'' :: '\'' :: rest => some (['\''], rest)
  | '\'' :: '\'' :: '\'' :: rest => some ([], rest)
  | '\'' :: rest => push '\'' (literalLines rest)
  | c :: rest => if c = '\n' ∨ isLiteral c then push c (literalLines rest) else none

/-- A line end right after the opening of a string of several lines is not part of it. -/
def dropLineEnd : List Char → List Char
  | '\n' :: rest => rest
  | cs => cs

/-- A string in any of the four forms. -/
def string? : List Char → Option (List Char × List Char)
  | '"' :: '"' :: '"' :: rest => basicLines .none (dropLineEnd rest)
  | '"' :: rest => basicBody rest
  | '\'' :: '\'' :: '\'' :: rest => literalLines (dropLineEnd rest)
  | '\'' :: rest => literalBody rest
  | _ => none

end StackLowering.Toml
