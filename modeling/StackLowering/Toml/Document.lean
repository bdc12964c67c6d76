import StackLowering.Toml.Number

/-!
Values and tables of TOML, and a reader of flat documents: lines of the form `key = value` whose
values are strings, integers or booleans, with blank lines and comments between them. A text with
tables, dotted keys, arrays, floats or dates is no flat document.
-/
namespace StackLowering.Toml

/-- Values of the types that flat documents hold. -/
inductive Plain where
  | text (s : String)
  | integer (n : Int)
  | boolean (b : Bool)
deriving DecidableEq, Repr

/-- Values of every type. Floats and dates keep the text that they were written as. -/
inductive Value where
  | plain (p : Plain)
  | float (written : String)
  | dateTime (written : String)
  | array (items : List Value)
  | table (entries : List (String × Value))
deriving Repr

/-- A table gives no key twice. -/
structure Table where
  entries : List (String × Value)
  nodup : (entries.map Prod.fst).Nodup

/-- An entry with a plain value. -/
def plainEntry (e : String × Plain) : String × Value := (e.1, .plain e.2)

/-- The table with the given entries, unless a key occurs twice. -/
def table? (es : List (String × Plain)) : Option Table :=
  if h : (es.map Prod.fst).Nodup then
    some ⟨es.map plainEntry, by rw [List.map_map]; exact h⟩
  else none

def isBareKey (c : Char) : Bool := c.isAlphanum || c == '_' || c == '-'

def isDelimiter (c : Char) : Bool := isSpace c || c == '\n' || c == '#'

/-- A key, bare or quoted on one line. -/
def key? : List Char → Option (String × List Char)
  | '"' :: rest => (basicBody rest).map fun r => (String.ofList r.1, r.2)
  | '\'' :: rest => (literalBody rest).map fun r => (String.ofList r.1, r.2)
  | cs =>
    match cs.takeWhile isBareKey with
    | [] => none
    | k => some (String.ofList k, cs.dropWhile isBareKey)

/-- A value that is a word: a boolean or an integer. -/
def word? (w : List Char) : Option Plain :=
  if w = "true".toList then some (.boolean true)
  else if w = "false".toList then some (.boolean false)
  else (integer? w).map .integer

def value? : List Char → Option (Plain × List Char)
  | '"' :: rest => (string? ('"' :: rest)).map fun r => (.text (String.ofList r.1), r.2)
  | '\'' :: rest => (string? ('\'' :: rest)).map fun r => (.text (String.ofList r.1), r.2)
  | cs => (word? (cs.takeWhile (!isDelimiter ·))).map fun v => (v, cs.dropWhile (!isDelimiter ·))

/-- The end of a line: spaces, an optional comment, and the line feed or the end of the text. -/
def lineEnd? (cs : List Char) : Option (List Char) :=
  match skipSpaces cs with
  | [] => some []
  | '\n' :: rest => some rest
  | '#' :: rest =>
    match rest.dropWhile (!isControl ·) with
    | [] => some []
    | '\n' :: after => some after
    | _ => none
  | _ => none

/-- A line that gives a key its value. -/
def keyValue? (cs : List Char) : Option ((String × Plain) × List Char) := do
  let (key, rest) ← key? (skipSpaces cs)
  match skipSpaces rest with
  | '=' :: rest =>
    let (value, rest) ← value? (skipSpaces rest)
    let rest ← lineEnd? rest
    some ((key, value), rest)
  | _ => none

/-- The entries of at most `n` lines. -/
def entries? : Nat → List Char → Option (List (String × Plain))
  | _, [] => some []
  | 0, _ :: _ => none
  | n + 1, c :: cs =>
    match lineEnd? (c :: cs) with
    | some rest => entries? n rest
    | none => do
      let (e, rest) ← keyValue? (c :: cs)
      let es ← entries? n rest
      some (e :: es)

/-- Line ends of two characters become line feeds. -/
def unifyLineEnds : List Char → List Char
  | '\r' :: '\n' :: cs => '\n' :: unifyLineEnds cs
  | c :: cs => c :: unifyLineEnds cs
  | [] => []

/-- A byte order mark at the start of a text is not part of it. -/
def dropMark : List Char → List Char
  | '\uFEFF' :: cs => cs
  | cs => cs

/-- The entries of a flat document in order. A text has no more lines than characters. -/
def document? (text : String) : Option (List (String × Plain)) :=
  let cs := unifyLineEnds (dropMark text.toList)
  entries? cs.length cs

end StackLowering.Toml
