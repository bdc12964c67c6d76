import Mathlib.Logic.Function.Basic
import StackLowering.Proofs.ClassLayout

/-!
The stack machine that listings are written for. Its values are abstract: an interpretation says
what constants denote and what the operations on numbers do, and an operation may trap. A
configuration holds the position in the listing, the operand stack, the static fields, the arrays
and the output. The machine is stuck where a line finds an operand that it cannot work with, or no
line.
-/
namespace StackLowering

/-- How far a computation got, with the state it is in. -/
inductive Outcome (S : Type) where
  | running (s : S)
  | done (s : S)
  | trapped (s : S)
  | stuck (s : S)

namespace Outcome

variable {S T : Type}

def state : Outcome S → S
  | running s | done s | trapped s | stuck s => s

/-- The state at the end, where there is one. -/
def done? : Outcome S → Option S
  | done s => some s
  | _ => none

def map (f : S → T) : Outcome S → Outcome T
  | running s => running (f s)
  | done s => done (f s)
  | trapped s => trapped (f s)
  | stuck s => stuck (f s)

@[simp] theorem state_map (f : S → T) (o : Outcome S) : (o.map f).state = f o.state := by
  cases o <;> rfl

/-- Go on where a computation was interrupted. -/
def resume (o : Outcome S) (f : S → Outcome S) : Outcome S :=
  match o with
  | running s => f s
  | o => o

/-- Go on after a computation is done. -/
def andThen (o : Outcome S) (f : S → Outcome S) : Outcome S :=
  match o with
  | done s => f s
  | o => o

end Outcome

/-- What constants denote and what operations do, over a domain that holds numbers, texts,
references and boxed numbers. Where an operation has no result, it traps. -/
structure Interpretation (V : Type) where
  constant : String → V
  int : Int → V
  int? : V → Option Int
  text? : V → Option String
  reference : Nat → V
  address? : V → Option Nat
  /-- What fills a new array. -/
  null : V
  arithmetic : Numeric → Arithmetic → V → V → Option V
  negate : Numeric → V → Option V
  box : Numeric → V → Option V
  compareInt : V → V → Option Ordering
  /-- The order of two reals, where there is one. -/
  compareReal : V → V → Option (Option Ordering)
  int?_int : ∀ k : Int, -1 ≤ k → k ≤ 1 → int? (int k) = some k
  int?_constant : ∀ n : Nat, int? (constant (toString n)) = some (n : Int)
  text?_constant : ∀ text : String, text? (constant s!"\"{text}\"") = some text
  address?_reference : ∀ a : Nat, address? (reference a) = some a

def Relation.holds : Relation → Ordering → Bool
  | gt, o => o = .gt
  | lt, o => o = .lt
  | ge, o => o ≠ .lt
  | le, o => o ≠ .gt
  | eq, o => o = .eq
  | ne, o => o ≠ .eq

/-- The number that a comparison of reals gives, with a choice for a pair without order. -/
def signOf (unordered : Int) : Option Ordering → Int
  | some .lt => -1
  | some .eq => 0
  | some .gt => 1
  | none => unordered

namespace Machine

structure Config (V : Type) where
  pc : Nat
  stack : List V
  statics : String → V
  heap : List (List V)
  /-- The calls of `printf` so far, each with its format and its array. -/
  trace : List (String × List V)

variable {V α : Type}

namespace Config

/-- The next line, with another stack. -/
def next (c : Config V) (stack : List V) : Config V := { c with pc := c.pc + 1, stack }

/-- Go on with the result of an operation that may trap. -/
def attempt (c : Config V) (result : Option α) (f : α → Config V) : Outcome (Config V) :=
  match result with
  | some a => .running (f a)
  | none => .trapped c

/-- Go on with what an operand has to be. -/
def require (c : Config V) (operand : Option α) (f : α → Outcome (Config V)) :
    Outcome (Config V) :=
  match operand with
  | some a => f a
  | none => .stuck c

/-- Allocate an array and push its address. -/
def allocate (c : Config V) (I : Interpretation V) (contents : List V) (stack : List V) :
    Config V :=
  { c.next (I.reference c.heap.length :: stack) with heap := c.heap ++ [contents] }

end Config

variable (I : Interpretation V) (ls : Listing)

/-- Print an array by the format below it. -/
def print (c : Config V) (array : V) : List V → Outcome (Config V)
  | format :: out :: stack =>
    c.require (I.address? array) fun a => c.require c.heap[a]? fun contents =>
      c.require (I.text? format) fun text =>
        .running { c.next (out :: stack) with trace := c.trace ++ [(text, contents)] }
  | _ => .stuck c

/-- Invoke a method of the library. The objects that it keeps are not looked into. -/
def invoke (c : Config V) (op : Opcode) (method : String) (top : V) (stack : List V) :
    Outcome (Config V) :=
  match op with
  | .invokeNonVirtual =>
    if method ∈ Library.supports.map (fun s => Descriptor.constructor s.className) then
      .running (c.next stack)
    else .stuck c
  | .invokeVirtual =>
    if method = Library.printElapsedTime then .running (c.next stack)
    else if method = Library.printf then print I c top stack
    else .stuck c
  | .invokeStatic =>
    if method = Library.boxing .integer then
      c.attempt (I.box .int top) fun v => c.next (v :: stack)
    else if method = Library.boxing .real then
      c.attempt (I.box .float top) fun v => c.next (v :: stack)
    else .stuck c
  | _ => .stuck c

/-- Store a value into an array. -/
def storeInto (c : Config V) (value index array : V) (stack : List V) : Outcome (Config V) :=
  c.require (I.address? array) fun a => c.require (I.int? index) fun k =>
    c.require c.heap[a]? fun contents =>
      if 0 ≤ k ∧ k < contents.length then
        .running { c.next stack with heap := c.heap.set a (contents.set k.toNat value) }
      else .stuck c

/-- Execute an operation. On the stack, the right operand is above the left one. -/
def operate (c : Config V) : Opcode → Option String → List V → Outcome (Config V)
  | .ldc, some text, stack => .running (c.next (I.constant text :: stack))
  | .getStatic, some field, stack => .running (c.next (c.statics field :: stack))
  | .putStatic, some field, v :: stack =>
    .running { c.next stack with statics := Function.update c.statics field v }
  | .arith n op, none, right :: left :: stack =>
    c.attempt (I.arithmetic n op left right) fun v => c.next (v :: stack)
  | .neg n, none, operand :: stack => c.attempt (I.negate n operand) fun v => c.next (v :: stack)
  | .fcmpl, none, right :: left :: stack =>
    c.attempt (I.compareReal left right) fun o => c.next (I.int (signOf (-1) o) :: stack)
  | .fcmpg, none, right :: left :: stack =>
    c.attempt (I.compareReal left right) fun o => c.next (I.int (signOf 1 o) :: stack)
  | .new, some _, stack => .running (c.allocate I [] stack)
  | .dup, none, v :: stack => .running (c.next (v :: v :: stack))
  | .pop, none, _ :: stack => .running (c.next stack)
  | .anewarray, some _, size :: stack =>
    c.require (I.int? size) fun k =>
      if 0 ≤ k then .running (c.allocate I (List.replicate k.toNat I.null) stack) else .stuck c
  | .aastore, none, value :: index :: array :: stack => storeInto I c value index array stack
  | .ret, none, _ => .done c
  | op, some method, top :: stack => invoke I c op method top stack
  | _, _, _ => .stuck c

/-- Go to the line that defines a label. -/
def jump (c : Config V) (l : Label) (stack : List V) : Outcome (Config V) :=
  c.require (ls.idxOf? (.label l)) fun i => .running { c with pc := i, stack }

/-- Jump if a condition holds, or go on with the next line. -/
def jumpIf (c : Config V) (condition : Bool) (l : Label) (stack : List V) : Outcome (Config V) :=
  if condition then jump ls c l stack else .running (c.next stack)

/-- Execute a branch. -/
def branch (c : Config V) : Opcode → Label → List V → Outcome (Config V)
  | .goto, l, stack => jump ls c l stack
  | .ifCompare rel, l, right :: left :: stack =>
    match I.compareInt left right with
    | some o => jumpIf ls c (rel.holds o) l stack
    | none => .trapped c
  | .ifZero rel, l, v :: stack =>
    c.require (I.int? v) fun k => jumpIf ls c (rel.holds (compare k 0)) l stack
  | _, _, _ => .stuck c

/-- Execute a line. Only operations and branches do something. -/
def execute (c : Config V) : Line → Outcome (Config V)
  | .instruction op operand => operate I c op operand c.stack
  | .branch op l => branch I ls c op l c.stack
  | _ => .running (c.next c.stack)

/-- Execute the current line. -/
def step (c : Config V) : Outcome (Config V) := c.require ls[c.pc]? (execute I ls c)

/-- Execute a number of lines, or fewer if the machine halts before. -/
def run : Nat → Config V → Outcome (Config V)
  | 0, c => .running c
  | n + 1, c => (step I ls c).resume (run n)

/-- The main method is about to run. -/
def start (statics : String → V) : Config V := ⟨Program.mainEntry ls, [], statics, [], []⟩

variable {I ls}

theorem run_add (m n : Nat) (c : Config V) :
    run I ls (m + n) c = (run I ls m c).resume (run I ls n) := by
  induction m generalizing c with
  | zero => rw [Nat.zero_add]; rfl
  | succ m ih =>
    rw [Nat.succ_add, run, run]
    cases step I ls c with
    | running d => exact ih d
    | _ => rfl

theorem run_of_running {m n : Nat} {c d : Config V} (h : run I ls m c = .running d) :
    run I ls (m + n) c = run I ls n d := by rw [run_add, h]; rfl

/-- A machine that halted stays as it is. -/
theorem run_eq_of_le {m n : Nat} {c : Config V} (h : ∀ d, run I ls m c ≠ .running d) (hmn : m ≤ n) :
    run I ls n c = run I ls m c := by
  obtain ⟨k, rfl⟩ := Nat.exists_eq_add_of_le hmn
  rw [run_add]
  cases hr : run I ls m c with
  | running d => exact absurd hr (h d)
  | _ => rfl

/-- The output so far is never taken back. -/
def Extends (c : Config V) (o : Outcome (Config V)) : Prop := c.trace <+: o.state.trace

theorem extends_attempt {c : Config V} {result : Option α} {f : α → Config V}
    (h : ∀ a, (f a).trace = c.trace) : Extends c (c.attempt result f) := by
  cases result with
  | none => exact List.prefix_rfl
  | some a =>
    change c.trace <+: (f a).trace
    exact h a ▸ List.prefix_rfl

theorem extends_require {c : Config V} {operand : Option α} {f : α → Outcome (Config V)}
    (h : ∀ a, Extends c (f a)) : Extends c (c.require operand f) := by
  cases operand with
  | none => exact List.prefix_rfl
  | some a => exact h a

theorem extends_print (c : Config V) (array : V) (stack : List V) :
    Extends c (print I c array stack) := by
  unfold print
  split
  · refine extends_require fun a => extends_require fun contents => extends_require fun text => ?_
    exact List.prefix_append _ _
  · exact List.prefix_rfl

theorem extends_invoke (c : Config V) (op : Opcode) (method : String) (top : V) (stack : List V) :
    Extends c (invoke I c op method top stack) := by
  unfold invoke
  split
  · split <;> exact List.prefix_rfl
  · split
    · exact List.prefix_rfl
    · split
      · exact extends_print c top stack
      · exact List.prefix_rfl
  · split
    · exact extends_attempt fun _ => rfl
    · split
      · exact extends_attempt fun _ => rfl
      · exact List.prefix_rfl
  · exact List.prefix_rfl

theorem extends_operate (c : Config V) (op : Opcode) (operand : Option String) (stack : List V) :
    Extends c (operate I c op operand stack) := by
  unfold operate
  split
  case h_4 | h_5 | h_6 | h_7 => exact extends_attempt fun _ => rfl
  case h_11 =>
    refine extends_require fun k => ?_
    split <;> exact List.prefix_rfl
  case h_12 =>
    refine extends_require fun a => extends_require fun k => extends_require fun contents => ?_
    split <;> exact List.prefix_rfl
  case h_14 => exact extends_invoke c _ _ _ _
  all_goals exact List.prefix_rfl

theorem extends_jump (c : Config V) (l : Label) (stack : List V) : Extends c (jump ls c l stack) :=
  extends_require fun _ => List.prefix_rfl

theorem extends_jumpIf (c : Config V) (condition : Bool) (l : Label) (stack : List V) :
    Extends c (jumpIf ls c condition l stack) := by
  unfold jumpIf
  split
  · exact extends_jump c l stack
  · exact List.prefix_rfl

theorem extends_branch (c : Config V) (op : Opcode) (l : Label) (stack : List V) :
    Extends c (branch I ls c op l stack) := by
  unfold branch
  split
  · exact extends_jump c l _
  · split
    · exact extends_jumpIf c _ l _
    · exact List.prefix_rfl
  · exact extends_require fun _ => extends_jumpIf c _ l _
  · exact List.prefix_rfl

theorem extends_step (c : Config V) : Extends c (step I ls c) := by
  refine extends_require fun line => ?_
  cases line with
  | instruction op operand => exact extends_operate c op operand c.stack
  | branch op l => exact extends_branch c op l c.stack
  | _ => exact List.prefix_rfl

theorem extends_run (n : Nat) (c : Config V) : Extends c (run I ls n c) := by
  induction n generalizing c with
  | zero => exact List.prefix_rfl
  | succ n ih =>
    have hstep : Extends c (step I ls c) := extends_step c
    rw [run]
    cases hs : step I ls c with
    | running d =>
      rw [hs] at hstep
      exact hstep.trans (ih d)
    | _ =>
      rw [hs] at hstep
      exact hstep

/-- A longer run has at least the output of a shorter one. -/
theorem trace_prefix_of_le {m n : Nat} (h : m ≤ n) (c : Config V) :
    (run I ls m c).state.trace <+: (run I ls n c).state.trace := by
  obtain ⟨k, rfl⟩ := Nat.exists_eq_add_of_le h
  rw [run_add]
  cases run I ls m c with
  | running d => exact extends_run k d
  | _ => exact List.prefix_rfl

end Machine

end StackLowering
