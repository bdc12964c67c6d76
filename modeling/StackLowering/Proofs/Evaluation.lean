import StackLowering.Proofs.CleanTree
import StackLowering.Proofs.SourceSemantics

/-!
Evaluation on the machine. The variables of a program are kept in static fields, one field for each
name. On the machine, the code of a clean expression pushes the expression's value, the code of a
condition jumps exactly when the condition holds, and the code of print arguments fills an array
with their boxed values, or the machine traps where the expression does. None of this is seen in the
variables or in the output.
-/
namespace StackLowering

open Machine

/-- Lines stand in a listing, from one position up to another. -/
def Listing.Spans (ls : Listing) : Nat → List Line → Nat → Prop
  | i, [], j => i = j
  | i, line :: lines, j => ls[i]? = some line ∧ Spans ls (i + 1) lines j

namespace Listing.Spans

theorem append_iff {ls : Listing} {front back : List Line} {i k : Nat} :
    Spans ls i (front ++ back) k ↔ ∃ j, Spans ls i front j ∧ Spans ls j back k := by
  induction front generalizing i with
  | nil => exact ⟨fun h => ⟨i, rfl, h⟩, fun ⟨j, hj, h⟩ => hj ▸ h⟩
  | cons line front ih =>
    constructor
    · rintro ⟨hl, h⟩
      obtain ⟨j, hf, hb⟩ := ih.mp h
      exact ⟨j, ⟨hl, hf⟩, hb⟩
    · rintro ⟨j, ⟨hl, hf⟩, hb⟩
      exact ⟨hl, ih.mpr ⟨j, hf, hb⟩⟩

theorem of_append (before code after : List Line) :
    Spans (before ++ code ++ after) before.length code (before.length + code.length) := by
  induction code generalizing before with
  | nil => exact rfl
  | cons line code ih =>
    refine ⟨by simp, ?_⟩
    have h := ih (before ++ [line])
    rwa [List.append_assoc before, List.length_append, List.length_singleton, Nat.add_assoc,
      Nat.add_comm 1] at h

end Listing.Spans

variable {V α β : Type} {I : Interpretation V} {ls : Listing} {scope : Scope}

namespace Scope

/-- The operand that names the field of a variable. -/
def slot (scope : Scope) (name : String) : String :=
  (scope.fieldFor ⟨name, .unknown, .nowhere⟩).text

theorem text_fieldFor {v : Variable} (h : scope.Holds v) :
    (scope.fieldFor v).text = scope.slot v.name := by
  simp [slot, fieldFor, storageTag, h.1]

/-- Every variable has a descriptor of one character. -/
theorem slot_eq (scope : Scope) (name : String) :
    ∃ d, d ≠ ';' ∧
      (scope.slot name).toList = scope.className.toList ++ '/' :: name.toList ++ [' '] ++ [d] := by
  have htext (descriptor : String) : (scope.field name descriptor).text.toList =
      scope.className.toList ++ '/' :: name.toList ++ [' '] ++ descriptor.toList := by
    change (scope.className ++ "/" ++ name ++ " " ++ descriptor).toList = _
    simp
  unfold slot fieldFor
  cases scope.storageTag ⟨name, .unknown, .nowhere⟩ with
  | integer => exact ⟨'I', by decide, htext "I"⟩
  | real => exact ⟨'F', by decide, htext "F"⟩
  | unknown => exact ⟨'?', by decide, htext "?"⟩

/-- Different variables have different fields. -/
theorem slot_injective (scope : Scope) : Function.Injective scope.slot := by
  intro a b h
  obtain ⟨d, -, ha⟩ := scope.slot_eq a
  obtain ⟨e, -, hb⟩ := scope.slot_eq b
  have hlist := ha.symm.trans ((congrArg String.toList h).trans hb)
  obtain ⟨hfront, -⟩ := List.append_inj' hlist rfl
  have hname := List.append_cancel_left (List.append_cancel_right hfront)
  exact String.toList_injective (List.cons.inj hname).2

/-- What can be seen of a configuration: the variables and the output. -/
def observe (scope : Scope) (c : Config V) : State V :=
  ⟨fun name => c.statics (scope.slot name), c.trace⟩

end Scope

namespace Machine

/-- Nothing that can be seen has changed. -/
structure Quiet (c d : Config V) : Prop where
  statics : d.statics = c.statics
  trace : d.trace = c.trace

theorem Quiet.trans {c d e : Config V} (h : Quiet c d) (h' : Quiet d e) : Quiet c e :=
  ⟨h'.statics.trans h.statics, h'.trace.trans h.trace⟩

theorem Quiet.observe_eq {c d : Config V} (h : Quiet c d) : scope.observe d = scope.observe c := by
  rw [Scope.observe, Scope.observe, h.statics, h.trace]

theorem step_of_getElem? {c : Config V} {line : Line} (h : ls[c.pc]? = some line) :
    step I ls c = execute I ls c line := by rw [step, h]; rfl

theorem run_one (c : Config V) : run I ls 1 c = step I ls c := by
  rw [run]
  cases step I ls c <;> rfl

/-- From a configuration the machine comes to one that a result fits, or it traps where there is no
result. Nothing of this can be seen. -/
def Yields (I : Interpretation V) (ls : Listing) (c : Config V) (result : Except Failure α)
    (fits : α → Config V → Prop) : Prop :=
  match result with
  | .ok a => ∃ n d, run I ls n c = .running d ∧ Quiet c d ∧ fits a d
  | .error .trapped => ∃ n d, run I ls n c = .trapped d ∧ Quiet c d
  | .error .stuck => False

namespace Yields

variable {c d : Config V} {result : Except Failure α} {fits : α → Config V → Prop} {line : Line}

theorem ok {a : α} (h : fits a c) : Yields I ls c (.ok a) fits := ⟨0, c, rfl, ⟨rfl, rfl⟩, h⟩

/-- Go on from where a run has come to. -/
theorem after {n : Nat} (h : run I ls n c = .running d) (hq : Quiet c d)
    (hd : Yields I ls d result fits) : Yields I ls c result fits := by
  match result, hd with
  | .ok a, hd =>
    obtain ⟨m, e, hr, hqd, ha⟩ := hd
    exact ⟨n + m, e, (run_of_running h).trans hr, hq.trans hqd, ha⟩
  | .error .trapped, hd =>
    obtain ⟨m, e, hr, hqd⟩ := hd
    exact ⟨n + m, e, (run_of_running h).trans hr, hq.trans hqd⟩

theorem bind {f : α → Except Failure β} {fits' : β → Config V → Prop}
    (h : Yields I ls c result fits)
    (hf : ∀ a d, fits a d → Quiet c d → Yields I ls d (f a) fits') :
    Yields I ls c (result >>= f) fits' := by
  match result, h with
  | .ok a, h =>
    obtain ⟨n, d, hr, hq, ha⟩ := h
    exact after hr hq (hf a d ha hq)
  | .error .trapped, h => exact h

/-- A line that has no choice. -/
theorem advance (hl : ls[c.pc]? = some line) (he : execute I ls c line = .running d)
    (hq : Quiet c d) (hd : Yields I ls d result fits) : Yields I ls c result fits :=
  after ((run_one c).trans ((step_of_getElem? hl).trans he)) hq hd

/-- A line with an operation that may trap. -/
theorem operation {r : Option α} {f : α → Config V} (hl : ls[c.pc]? = some line)
    (he : execute I ls c line = c.attempt r f) (hq : ∀ a, Quiet c (f a)) :
    Yields I ls c (Failure.orTrap r) fun a d => d = f a := by
  have hrun : run I ls 1 c = c.attempt r f := (run_one c).trans ((step_of_getElem? hl).trans he)
  cases r with
  | none => exact ⟨1, c, hrun, rfl, rfl⟩
  | some a => exact ⟨1, f a, hrun, hq a, rfl⟩

end Yields

end Machine

namespace Expr

/-- The code of a clean expression pushes its value. -/
theorem eval_yields {e : Expr} (h : e.Clean scope) {c : Config V} {j : Nat}
    (hs : ls.Spans c.pc (e.code scope) j) :
    Yields I ls c (e.eval I (scope.observe c).store) fun v d =>
      d = { c with pc := j, stack := v :: c.stack } := by
  induction e generalizing c j with
  | literal kind text tag span =>
    obtain ⟨hl, rfl⟩ := hs
    exact .advance hl rfl ⟨rfl, rfl⟩ (.ok rfl)
  | var v =>
    obtain ⟨hl, rfl⟩ := hs
    refine .advance hl rfl ⟨rfl, rfl⟩ (.ok ?_)
    rw [Scope.text_fieldFor h]
    rfl
  | binary op left right tag span ihl ihr =>
    cases op with
    | relation rel => exact h.elim
    | arithmetic op =>
      obtain ⟨hl, hr, hcommon⟩ := h
      obtain ⟨n, hleft, hright⟩ := Tag.commonNumeric?_isSome_iff.mp hcommon
      have hn : Tag.commonNumeric? left.tag right.tag = some n := by
        rw [hleft, hright]
        cases n <;> rfl
      rw [code, hleft, hright, Operator.arithmeticOr_tag] at hs
      obtain ⟨k, hoperands, hop, rfl⟩ := Listing.Spans.append_iff.mp hs
      obtain ⟨i, hsl, hsr⟩ := Listing.Spans.append_iff.mp hoperands
      simp only [eval, hn]
      refine .bind (ihl hl hsl) ?_
      rintro a d rfl -
      refine .bind (ihr hr hsr) ?_
      rintro b d rfl -
      exact .operation hop rfl fun _ => ⟨rfl, rfl⟩
  | negate operand tag span ih =>
    obtain ⟨ho, hnum⟩ := h
    obtain ⟨n, hn⟩ := Tag.isNumeric_iff.mp hnum
    rw [code, hn, Tag.negationOr_tag] at hs
    obtain ⟨i, hso, hop, rfl⟩ := Listing.Spans.append_iff.mp hs
    simp only [eval, Tag.numeric?_eq_some_iff.mpr hn]
    refine .bind (ih ho hso) ?_
    rintro a d rfl -
    exact .operation hop rfl fun _ => ⟨rfl, rfl⟩

end Expr

namespace Machine

theorem jumpIf_eq {l : Label} {i : Nat} (h : ls.idxOf? (.label l) = some i) (c : Config V)
    (condition : Bool) (stack : List V) :
    jumpIf ls c condition l stack =
      .running { c with pc := if condition then i else c.pc + 1, stack } := by
  cases condition with
  | false => rfl
  | true =>
    change jump ls c l stack = _
    rw [jump, h]
    rfl

/-- The comparison chosen for a relation answers for a pair without order so that only inequality
holds. -/
theorem operate_floatCompare (I : Interpretation V) (rel : Relation) :
    ∃ unordered : Int, -1 ≤ unordered ∧ unordered ≤ 1 ∧
      (∀ (c : Config V) (right left : V) (stack : List V),
        operate I c rel.floatCompare none (right :: left :: stack) =
          c.attempt (I.compareReal left right) fun o =>
            c.next (I.int (signOf unordered o) :: stack)) ∧
      ∀ o, rel.holds (compare (signOf unordered o) 0) = rel.holdsReal o := by
  have hsign (rel : Relation) (unordered : Int)
      (h : rel.holds (compare unordered 0) = decide (rel = .ne)) :
      ∀ o, rel.holds (compare (signOf unordered o) 0) = rel.holdsReal o
    | none => h
    | some .lt | some .eq | some .gt => rfl
  cases rel with
  | lt | le => exact ⟨1, by decide, by decide, fun _ _ _ _ => rfl, hsign _ _ (by decide)⟩
  | gt | ge | eq | ne =>
    exact ⟨-1, by decide, by decide, fun _ _ _ _ => rfl, hsign _ _ (by decide)⟩

theorem int?_signOf (I : Interpretation V) {unordered : Int} (hl : -1 ≤ unordered)
    (hu : unordered ≤ 1) (o : Option Ordering) :
    I.int? (I.int (signOf unordered o)) = some (signOf unordered o) := by
  match o with
  | none => exact I.int?_int unordered hl hu
  | some .lt => exact I.int?_int (-1) (by decide) (by decide)
  | some .eq => exact I.int?_int 0 (by decide) (by decide)
  | some .gt => exact I.int?_int 1 (by decide) (by decide)

theorem execute_boxing (n : Numeric) {c : Config V} {v : V} {stack : List V}
    (h : c.stack = v :: stack) :
    execute I ls c (.instruction .invokeStatic (some (Library.boxing n.tag))) =
      c.attempt (I.box n v) fun w => c.next (w :: stack) := by
  simp only [execute, h]
  cases n <;> rfl

/-- Store a value behind those that an array holds already. -/
theorem execute_store {c : Config V} {w : V} {front stack : List V} {a n : Nat}
    (h : c.stack = w :: I.constant (toString front.length) :: I.reference a :: stack)
    (hheap : c.heap[a]? = some (front ++ List.replicate (n + 1) I.null)) :
    execute I ls c (.instruction .aastore none) =
      .running { c.next stack with
        heap := c.heap.set a (front ++ [w] ++ List.replicate n I.null) } := by
  have hbound : 0 ≤ (front.length : Int) ∧
      (front.length : Int) < (front ++ List.replicate (n + 1) I.null).length := by
    rw [List.length_append, List.length_replicate]
    omega
  simp only [execute, h, operate, storeInto, I.address?_reference, I.int?_constant, hheap,
    Config.require, if_pos hbound]
  simp [List.replicate_succ]

end Machine

namespace Expr

/-- The code of a clean condition goes to its label exactly when the condition holds. -/
theorem holds_yields {e : Expr} (h : e.CleanCondition scope) {target : Label} {i : Nat}
    (hi : ls.idxOf? (.label target) = some i) {c : Config V} {j : Nat}
    (hs : ls.Spans c.pc (e.branchCode scope target) j) :
    Yields I ls c (e.holds I (scope.observe c).store) fun b d =>
      d = { c with pc := if b then i else j } := by
  match e with
  | binary (.relation rel) left right tag span =>
    obtain ⟨hl, hr, hcommon⟩ := h
    obtain ⟨n, hleft, hright⟩ := Tag.commonNumeric?_isSome_iff.mp hcommon
    rw [branchCode, hleft, hright, Operator.comparisonOr_tag] at hs
    obtain ⟨k, hoperands, hjump⟩ := Listing.Spans.append_iff.mp hs
    obtain ⟨m, hsl, hsr⟩ := Listing.Spans.append_iff.mp hoperands
    rw [holds]
    refine .bind (eval_yields hl hsl) ?_
    rintro a d rfl -
    refine .bind (eval_yields hr hsr) ?_
    rintro b d rfl -
    cases n with
    | int =>
      obtain ⟨hbranch, rfl⟩ := hjump
      have hn : Tag.commonNumeric? left.tag right.tag = some .int := by rw [hleft, hright]; rfl
      simp only [hn]
      cases ho : I.compareInt a b with
      | none =>
        refine ⟨1, _, ?_, ⟨rfl, rfl⟩⟩
        rw [run_one, step_of_getElem? hbranch]
        simp [execute, branch, ho]
      | some o =>
        refine .advance hbranch (d := { c with pc := if rel.holds o then i else k + 1 }) ?_
          ⟨rfl, rfl⟩ (.ok rfl)
        simp [execute, branch, ho, jumpIf_eq hi]
    | float =>
      obtain ⟨hcompare, hbranch, rfl⟩ := hjump
      obtain ⟨unordered, hlow, hhigh, hop, hsign⟩ := operate_floatCompare I rel
      have hn : Tag.commonNumeric? left.tag right.tag = some .float := by rw [hleft, hright]; rfl
      simp only [hn]
      refine .bind (.operation hcompare (hop _ b a c.stack) fun _ => ⟨rfl, rfl⟩) ?_
      rintro o d rfl -
      refine .advance hbranch (d := { c with pc := if rel.holdsReal o then i else k + 1 + 1 }) ?_
        ⟨rfl, rfl⟩ (.ok rfl)
      simp [execute, branch, Config.next, Config.require, int?_signOf I hlow hhigh, jumpIf_eq hi,
        hsign]

/-- The code of clean print arguments fills an array with their boxed values. -/
theorem evalArguments_yields {args : List Expr}
    (h : ∀ arg ∈ args, arg.Clean scope ∧ arg.tag.isNumeric = true) {front : List V} {a : Nat}
    {c : Config V} {stack : List V} {j : Nat} (hstack : c.stack = I.reference a :: stack)
    (hheap : c.heap[a]? = some (front ++ List.replicate args.length I.null))
    (hs : ls.Spans c.pc (argumentsCode scope front.length args) j) :
    Yields I ls c (evalArguments I (scope.observe c).store args) fun vs d =>
      d.pc = j ∧ d.stack = c.stack ∧ d.heap[a]? = some (front ++ vs) := by
  induction args generalizing front c with
  | nil =>
    refine .ok ⟨hs, rfl, ?_⟩
    simpa using hheap
  | cons arg args ih =>
    obtain ⟨hclean, hnum⟩ := h arg List.mem_cons_self
    obtain ⟨n, hn⟩ := Tag.isNumeric_iff.mp hnum
    obtain ⟨k, hfill, hrest⟩ := Listing.Spans.append_iff.mp hs
    obtain ⟨m, hpush, hbox, hstore, rfl⟩ := Listing.Spans.append_iff.mp hfill
    obtain ⟨i, ⟨hdup, hindex, rfl⟩, hvalue⟩ := Listing.Spans.append_iff.mp hpush
    simp only [evalArguments, Tag.numeric?_eq_some_iff.mpr hn]
    refine .advance hdup (d := c.next (I.reference a :: c.stack)) ?_ ⟨rfl, rfl⟩ ?_
    · simp [execute, operate, hstack]
    refine .advance hindex rfl ⟨rfl, rfl⟩ ?_
    refine .bind (eval_yields hclean hvalue) ?_
    rintro v d rfl -
    rw [hn] at hbox
    refine .bind (.operation hbox (execute_boxing n rfl) fun _ => ⟨rfl, rfl⟩) ?_
    rintro w d rfl -
    refine .advance hstore (execute_store rfl hheap) ⟨rfl, rfl⟩ ?_
    -- The array now holds one value more, and the other arguments go behind it.
    obtain ⟨ha, -⟩ := List.getElem?_eq_some_iff.mp hheap
    have hlength : (front ++ [w]).length = front.length + 1 := by simp
    refine .bind (ih (fun arg harg => h arg (List.mem_cons_of_mem _ harg)) hstack
      (List.getElem?_set_self ha) (hlength ▸ hrest)) ?_
    rintro ws d ⟨hpc, hkeep, hfilled⟩ -
    refine .ok ⟨hpc, hkeep, ?_⟩
    rw [hfilled, List.append_assoc]
    rfl

end Expr

end StackLowering
