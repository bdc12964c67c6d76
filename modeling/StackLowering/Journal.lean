import StackLowering.Assembly.Listing
import StackLowering.Diagnostic.Warning

/-!
The journal of a run: messages in the order in which things happened. Every emitted line and every
warning is a message, beside notes on what is being worked on.
-/
namespace StackLowering

/-- Levels from the most to the least urgent. -/
inductive Level where
  | error
  | warn
  | info
  | debug
  | trace
deriving DecidableEq, Repr

namespace Level

def name : Level → String
  | error => "ERROR"
  | warn => "WARN"
  | info => "INFO"
  | debug => "DEBUG"
  | trace => "TRACE"

def rank : Level → Nat
  | error => 0
  | warn => 1
  | info => 2
  | debug => 3
  | trace => 4

end Level

inductive Message where
  | emitted (line : Line)
  | warned (warning : Warning)
  | note (level : Level) (text : String)
deriving DecidableEq, Repr

namespace Message

def level : Message → Level
  | emitted _ => .trace
  | warned _ => .warn
  | note l _ => l

def text : Message → String
  | emitted line => line.text
  | warned w => w.message
  | note _ t => t

end Message

abbrev Journal := List Message

/-- The messages that are at least as urgent as a level. -/
def Journal.upTo (j : Journal) (l : Level) : Journal := j.filter fun m => m.level.rank ≤ l.rank

end StackLowering
