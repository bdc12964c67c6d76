import StackLowering.Diagnostic.Error
import StackLowering.Options.Basic
import StackLowering.Toml.Document

/-!
Options from a TOML document. Every option has a key; a document gives any of them at most once, and
the others keep their defaults. A value is never converted: a key takes one kind of value, and a
limit has to be a 32-bit word. How a text becomes a table and a table becomes options is left open
where options are read, and the flat reader is one way.
-/
namespace StackLowering

inductive OptionKey where
  | superClass
  | extension
  | stackLimit
  | localsLimit
  | sourceComments
  | lineDirectives
deriving DecidableEq, Repr

inductive OptionsError where
  | malformed
  | repeatedKey
  | unknownKey (key : String)
  | wrongKind (key : String)
  | outOfRange (key : String)
deriving DecidableEq, Repr

def OptionsError.message : OptionsError → String
  | malformed => "not a flat TOML document"
  | repeatedKey => "a key is given twice"
  | unknownKey key => "unknown key " ++ key
  | wrongKind key => "key " ++ key ++ " does not take such a value"
  | outOfRange key => "the value of " ++ key ++ " is out of range"

namespace OptionKey

def name : OptionKey → String
  | superClass => "super_class"
  | extension => "extension"
  | stackLimit => "main_stack_limit"
  | localsLimit => "main_locals_limit"
  | sourceComments => "source_comments"
  | lineDirectives => "line_directives"

def all : List OptionKey :=
  [superClass, extension, stackLimit, localsLimit, sourceComments, lineDirectives]

def ofName? (name : String) : Option OptionKey := all.find? (·.name = name)

theorem ofName?_name (k : OptionKey) : ofName? k.name = some k := by cases k <;> decide

/-- A limit is a word. -/
def limit (k : OptionKey) (n : Int) : Except OptionsError UInt32 :=
  if 0 ≤ n ∧ n < UInt32.size then .ok (UInt32.ofNat n.toNat) else .error (.outOfRange k.name)

def set (o : Options) : OptionKey → Toml.Value → Except OptionsError Options
  | superClass, .plain (.text s) => .ok { o with superClass := s }
  | extension, .plain (.text s) => .ok { o with extension := s }
  | stackLimit, .plain (.integer n) => do
    let limit ← limit .stackLimit n
    return { o with stackLimit := limit }
  | localsLimit, .plain (.integer n) => do
    let limit ← limit .localsLimit n
    return { o with localsLimit := limit }
  | sourceComments, .plain (.boolean b) => .ok { o with sourceComments := b }
  | lineDirectives, .plain (.boolean b) => .ok { o with lineDirectives := b }
  | k, _ => .error (.wrongKind k.name)

end OptionKey

namespace Options

variable {ε : Type}

/-- The options of a text, by a reader of TOML and a way to make options of a table. -/
def read (parse : String → Except ε Toml.Table) (decode : Toml.Table → Except ε Options)
    (text : String) : Except ε Options := do
  let t ← parse text
  decode t

/-- Whatever keeps a text from being read makes the options invalid. -/
def fromToml (parse : String → Except ε Toml.Table) (decode : Toml.Table → Except ε Options)
    (message : ε → String) (text : String) : Except Error Options :=
  (read parse decode text).mapError fun e => .invalidOptions (message e)

/-- The table of a flat document. -/
def flatTable (text : String) : Except OptionsError Toml.Table :=
  match Toml.document? text with
  | none => .error .malformed
  | some es =>
    match Toml.table? es with
    | none => .error .repeatedKey
    | some t => .ok t

def setEntry (o : Options) (e : String × Toml.Value) : Except OptionsError Options :=
  match OptionKey.ofName? e.1 with
  | none => .error (.unknownKey e.1)
  | some k => OptionKey.set o k e.2

/-- The options that a table sets, over the defaults. -/
def ofTable (t : Toml.Table) : Except OptionsError Options := t.entries.foldlM setEntry {}

/-- The options that a flat document sets. -/
def ofToml : String → Except OptionsError Options := read flatTable ofTable

def fromFlatToml : String → Except Error Options :=
  fromToml flatTable ofTable OptionsError.message

end Options

end StackLowering
