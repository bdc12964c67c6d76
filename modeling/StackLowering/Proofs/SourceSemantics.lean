import StackLowering.Proofs.Machine

/-!
What programs mean. Operands are evaluated from left to right, and the tags of the operands choose
between the operations on integers and those on reals. A loop runs its body and repeats it while its
condition holds. The number of rounds that a loop may take is bounded, so that a program which does
not end is one that is running still, whatever the bound.
-/
namespace StackLowering

/-- Why an expression has no value: an operation traps, or there is none for its operands. -/
inductive Failure where
  | trapped
  | stuck

/-- An order between reals fails for a pair without order, and only inequality holds. -/
def Relation.holdsReal (rel : Relation) : Option Ordering → Bool
  | some o => rel.holds o
  | none => rel = .ne

variable {V S α : Type}

/-- The result of an operation that may trap. -/
def Failure.orTrap : Option α → Except Failure α
  | some a => .ok a
  | none => .error .trapped

namespace Expr

variable (I : Interpretation V) (store : String → V)

def eval : Expr → Except Failure V
  | literal _ text _ _ => .ok (I.constant text)
  | var v => .ok (store v.name)
  | binary (.arithmetic op) left right _ _ => do
    let a ← left.eval
    let b ← right.eval
    match Tag.commonNumeric? left.tag right.tag with
    | some n => Failure.orTrap (I.arithmetic n op a b)
    | none => .error .stuck
  | binary (.relation _) _ _ _ _ => .error .stuck
  | negate operand _ _ => do
    let a ← operand.eval
    match operand.tag.numeric? with
    | some n => Failure.orTrap (I.negate n a)
    | none => .error .stuck

/-- Whether a comparison holds. -/
def holds : Expr → Except Failure Bool
  | binary (.relation rel) left right _ _ => do
    let a ← left.eval I store
    let b ← right.eval I store
    match Tag.commonNumeric? left.tag right.tag with
    | some .int => return rel.holds (← Failure.orTrap (I.compareInt a b))
    | some .float => return rel.holdsReal (← Failure.orTrap (I.compareReal a b))
    | none => .error .stuck
  | _ => .error .stuck

/-- The boxed values of print arguments. -/
def evalArguments : List Expr → Except Failure (List V)
  | [] => .ok []
  | arg :: args => do
    let v ← arg.eval I store
    match arg.tag.numeric? with
    | some n => return (← Failure.orTrap (I.box n v)) :: (← evalArguments args)
    | none => .error .stuck

end Expr

/-- The values of the variables and the output so far. -/
structure State (V : Type) where
  store : String → V
  trace : List (String × List V)

/-- Go on with a result. -/
def Outcome.proceed (s : S) (result : Except Failure α) (f : α → Outcome S) : Outcome S :=
  match result with
  | .ok a => f a
  | .error .trapped => .trapped s
  | .error .stuck => .stuck s

/-- Run a body, and again while a condition holds, for a number of rounds at most. -/
def iterate (body : S → Outcome S) (cond : S → Except Failure Bool) : Nat → S → Outcome S
  | 0, s => .running s
  | n + 1, s => (body s).andThen fun t =>
    .proceed t (cond t) fun again => if again then iterate body cond n t else .done t

mutual

/-- Execute a statement, with a bound on the rounds of each loop. -/
def Stmt.exec (I : Interpretation V) (rounds : Nat) : Stmt → State V → Outcome (State V)
  | .assign target value _, s => .proceed s (value.eval I s.store) fun v =>
    .done { s with store := Function.update s.store target.name v }
  | .block body _, s => execAll I rounds body s
  | .ifThen cond body _, s => .proceed s (cond.holds I s.store) fun b =>
    if b then execAll I rounds body s else .done s
  | .ifElse cond body alternative _, s => .proceed s (cond.holds I s.store) fun b =>
    if b then execAll I rounds body s else execAll I rounds alternative s
  | .loop body cond _, s =>
    iterate (execAll I rounds body) (fun t => cond.holds I t.store) rounds s
  | .print format args _, s => .proceed s (Expr.evalArguments I s.store args) fun vs =>
    match formatText? format with
    | some text => .done { s with trace := s.trace ++ [(text, vs)] }
    | none => .stuck s

/-- Execute statements one after another. -/
def execAll (I : Interpretation V) (rounds : Nat) : List Stmt → State V → Outcome (State V)
  | [], s => .done s
  | first :: rest, s => (first.exec I rounds s).andThen (execAll I rounds rest)

end

end StackLowering
