import Mathlib.Algebra.Ring.Int.Defs
import StackLowering.Proofs.Emission

/-!
Depths of the operand stack. What an operation pops and what it pushes are counted apart here, and
an invocation is counted by what its method takes and gives. The depth that is kept while lines are
emitted changes by the difference of the two, whether the difference comes from the table of effects
or is read off the reference of a method.
-/
namespace StackLowering

/-- What an operation that is no invocation pops and pushes. -/
def Opcode.arity? : Opcode → Option (Nat × Nat)
  | ldc | getStatic | new | aload0 => some (0, 1)
  | putStatic | pop | ifZero _ => some (1, 0)
  | arith _ _ | fcmpl | fcmpg | unresolved => some (2, 1)
  | neg _ | anewarray | unresolvedNeg => some (1, 1)
  | ifCompare _ | unresolvedBranch => some (2, 0)
  | dup => some (1, 2)
  | aastore => some (3, 0)
  | goto | ret => some (0, 0)
  | invokeNonVirtual | invokeVirtual | invokeStatic => none

/-- What the invocation of a method of the library pops, its receiver included, and pushes. -/
def Library.arity? (op : Opcode) (method : String) : Option (Nat × Nat) :=
  match op with
  | .invokeNonVirtual =>
    if method = Descriptor.constructor runTimer.className ∨
        method = Descriptor.constructor textIn.className then some (1, 0) else none
  | .invokeVirtual =>
    if method = printElapsedTime then some (1, 0)
    else if method = printf then some (3, 1) else none
  | .invokeStatic =>
    if method = boxing .integer ∨ method = boxing .real then some (1, 1) else none
  | _ => none

/-- What a line pops and pushes. A line that is no operation does neither. -/
def Line.arity? : Line → Option (Nat × Nat)
  | instruction op none => op.arity?
  | instruction op (some operand) => (op.arity?).or (Library.arity? op operand)
  | branch op _ => op.arity?
  | _ => some (0, 0)

/-- The change of depth at a line. -/
def Line.net (l : Line) : Int :=
  match l.arity? with
  | some (pops, pushes) => (pushes : Int) - pops
  | none => 0

theorem Opcode.effect?_eq (op : Opcode) :
    op.effect? = op.arity?.map fun a => (a.2 : Int) - a.1 := by
  cases op <;> rfl

theorem Library.effect?_eq {op : Opcode} {method : String} {a : Nat × Nat}
    (h : Library.arity? op method = some a) :
    Invocation.effect? method (Assembler.hasReceiver op) = some ((a.2 : Int) - a.1) := by
  unfold Library.arity? at h
  split at h
  · split at h
    case isTrue hm => cases h; rcases hm with rfl | rfl <;> decide
    case isFalse => contradiction
  · split at h
    case isTrue hm => cases h; subst hm; decide
    case isFalse =>
      split at h
      case isTrue hm => cases h; subst hm; decide
      case isFalse => contradiction
  · split at h
    case isTrue hm => cases h; rcases hm with rfl | rfl <;> decide
    case isFalse => contradiction
  · contradiction

namespace Invocation

/-- What stands behind any occurrence of a character ends what stands behind its first one. -/
theorem suffix_tail_dropWhile (c : Char) (front back : List Char) :
    back <:+ ((front ++ c :: back).dropWhile (· ≠ c)).tail := by
  induction front with
  | nil => simp
  | cons a front ih =>
    by_cases ha : a = c
    · subst ha
      have hs : back <:+ front ++ a :: back :=
        (List.suffix_cons a back).trans (List.suffix_append front (a :: back))
      simpa using hs
    · simpa [ha] using ih

/-- An empty parameter list at the end closes whatever was opened before it. -/
theorem shape_append (front : List Char) :
    ∃ parameters, shape (front ++ '(' :: ")V".toList) = .signature parameters ['V'] := by
  obtain ⟨parameters, hinner⟩ := suffix_tail_dropWhile '(' front ")V".toList
  have hmem : '(' ∈ front ++ '(' :: ")V".toList ∧ ')' ∈ front ++ '(' :: ")V".toList := by simp
  have hback : (parameters ++ ")V".toList).reverse = 'V' :: ')' :: parameters.reverse := by simp
  refine ⟨parameters, ?_⟩
  simp only [shape, if_pos hmem, ← hinner, hback]
  simp

/-- Invoking a constructor without parameters gives nothing and takes a receiver, but whatever the
name of its class holds in parentheses is taken for parameters. -/
theorem effect?_constructor (className : String) (receiver : Bool) :
    ∃ slots : Nat, effect? (Descriptor.constructor className) receiver =
      some (-(slots : Int) - if receiver then 1 else 0) := by
  have hm : (Descriptor.constructor className).toList =
      (className.toList ++ "/<init>".toList) ++ '(' :: ")V".toList := by
    change (className ++ "/<init>()V").toList = _
    simp
  obtain ⟨parameters, hshape⟩ := shape_append (className.toList ++ "/<init>".toList)
  refine ⟨parameterSlots parameters, ?_⟩
  rw [effect?, hm, hshape]
  simp [resultSlots]

end Invocation

@[simp] theorem Library.arity?_boxing (t : Tag) :
    Library.arity? .invokeStatic (Library.boxing t) = some (1, 1) := by
  cases t <;> simp [Library.arity?, Library.boxing]

@[simp] theorem Library.arity?_printf :
    Library.arity? .invokeVirtual Library.printf = some (3, 1) := by decide

@[simp] theorem Library.arity?_printElapsedTime :
    Library.arity? .invokeVirtual Library.printElapsedTime = some (1, 0) := by decide

@[simp] theorem Library.arity?_constructor {s : Library.Support} (h : s ∈ Library.supports) :
    Library.arity? .invokeNonVirtual (Descriptor.constructor s.className) = some (1, 0) := by
  simp only [Library.supports, List.mem_cons, List.not_mem_nil, or_false] at h
  rcases h with rfl | rfl <;> simp [Library.arity?]

/-- An arithmetic node takes two values and gives one, whatever operation was selected. -/
@[simp] theorem Operator.arity?_arithmeticOr (op : Operator) (left right : Tag) :
    (op.arithmeticOr left right).arity? = some (2, 1) := by
  rcases op with op | rel <;> cases left <;> cases right <;> rfl

@[simp] theorem Tag.arity?_negationOr (t : Tag) : t.negationOr.arity? = some (1, 1) := by
  cases t <;> rfl

/-- Whether the depth changes at an emission by what its lines pop and push. Methods are opened and
closed outside of such emissions. -/
def Emission.isCounted : Emission → Bool
  | .instruction op _ => op.arity?.isSome
  | .invoke op method => (Library.arity? op method).isSome
  | .openMethod _ | .closeMethod _ _ => false
  | _ => true

@[simp] theorem Emission.isCounted_invoke (op : Opcode) (method : String) :
    (Emission.invoke op method).isCounted = (Library.arity? op method).isSome := rfl

/-- A jump takes two values, by its branch or by a comparison that leaves one to the branch. -/
theorem Operator.comparisonOr_cases (op : Operator) (left right : Tag) :
    (∃ b, op.comparisonOr left right = .direct b ∧ b.arity? = some (2, 0)) ∨
      ∃ c b, op.comparisonOr left right = .compared c b ∧ c.arity? = some (2, 1) ∧
        b.arity? = some (1, 0) := by
  rcases op with op | rel
  · exact .inl ⟨.unresolvedBranch, rfl, rfl⟩
  · change (∃ b, ((Tag.commonNumeric? left right).map rel.jump).getD _ = _ ∧ _) ∨
      ∃ c b, ((Tag.commonNumeric? left right).map rel.jump).getD _ = _ ∧ _
    cases Tag.commonNumeric? left right with
    | none => exact .inl ⟨.unresolvedBranch, rfl, rfl⟩
    | some n =>
      cases n with
      | int => exact .inl ⟨.ifCompare rel, rfl, rfl⟩
      | float => exact .inr ⟨rel.floatCompare, .ifZero rel, rfl, by cases rel <;> rfl, rfl⟩

/-- Lines, each with the depth before it. -/
def depths : Int → List Line → List (Line × Int)
  | _, [] => []
  | d, l :: ls => (l, d) :: depths (d + l.net) ls

theorem depths_append (d : Int) (ls ms : List Line) :
    depths d (ls ++ ms) = depths d ls ++ depths (d + (ls.map Line.net).sum) ms := by
  induction ls generalizing d with
  | nil => simp [depths]
  | cons l ls ih => simp [depths, ih, Int.add_assoc]

theorem getElem?_depths (d : Int) (front back : List Line) (line : Line) :
    (depths d (front ++ line :: back))[front.length]? =
      some (line, d + (front.map Line.net).sum) := by
  induction front generalizing d with
  | nil => simp [depths]
  | cons first front ih => simpa [depths, Int.add_assoc] using ih (d + first.net)

namespace Assembler

/-- The depth that an emission starts from: opening a method starts to count anew. -/
def entryDepth (a : Assembler) : Emission → Int
  | .openMethod _ => 0
  | _ => a.depth

/-- The lines that emissions append, each with the depth that was kept when it was emitted. -/
def tracked (a : Assembler) : List Emission → List (Line × Int)
  | [] => []
  | e :: es => (a.written e).map (·, a.entryDepth e) ++ (a.emit e).tracked es

theorem map_fst_tracked (a : Assembler) (es : List Emission) :
    (a.tracked es).map Prod.fst = a.writtenAll es := by
  induction es generalizing a with
  | nil => rfl
  | cons e es ih => simp [tracked, ih, Function.comp_def]

theorem tracked_append (a : Assembler) (es fs : List Emission) :
    a.tracked (es ++ fs) = a.tracked es ++ (a.emitAll es).tracked fs := by
  induction es generalizing a with
  | nil => rfl
  | cons e es ih => simp [tracked, ih]

/-- A counted emission appends at most one line and changes the depth as that line does. -/
theorem emit_counted {e : Emission} (h : e.isCounted = true) (a : Assembler) :
    (a.written e).map (·, a.entryDepth e) = depths a.depth (a.written e) ∧
      (a.emit e).depth = a.depth + ((a.written e).map Line.net).sum := by
  cases e with
  | instruction op operand =>
    refine ⟨rfl, ?_⟩
    obtain ⟨⟨pops, pushes⟩, ha⟩ := Option.isSome_iff_exists.mp h
    have hn : (Line.instruction op operand).net = (pushes : Int) - pops := by
      cases operand <;> simp [Line.net, Line.arity?, ha]
    have he : op.effect = (pushes : Int) - pops := by simp [Opcode.effect, op.effect?_eq, ha]
    change a.depth + op.effect = a.depth + ((Line.instruction op operand).net + 0)
    rw [hn, he, Int.add_zero]
  | invoke op method =>
    refine ⟨rfl, ?_⟩
    obtain ⟨⟨pops, pushes⟩, ha⟩ := Option.isSome_iff_exists.mp h
    have hop : op.arity? = none := by
      unfold Library.arity? at ha
      split at ha <;> first | rfl | contradiction
    have hn : (Line.instruction op (some method)).net = (pushes : Int) - pops := by
      simp [Line.net, Line.arity?, hop, ha]
    change a.depth + (Invocation.effect? method (hasReceiver op)).getD 0 =
      a.depth + ((Line.instruction op (some method)).net + 0)
    rw [hn, Library.effect?_eq ha, Int.add_zero, Option.getD_some]
  | branch op target =>
    refine ⟨rfl, ?_⟩
    change a.depth + op.effect = a.depth + ((Line.branch op target).net + 0)
    rw [Int.add_zero, Opcode.effect, op.effect?_eq, Line.net, Line.arity?]
    cases op.arity? <;> rfl
  | openMethod header => contradiction
  | closeMethod locals stack => contradiction
  | _ => exact ⟨rfl, (Int.add_zero _).symm⟩

/-- The depth kept over counted emissions is the one that the lines themselves give. -/
theorem tracked_counted {es : List Emission} (h : ∀ e ∈ es, e.isCounted = true) (a : Assembler) :
    a.tracked es = depths a.depth (a.writtenAll es) := by
  induction es generalizing a with
  | nil => rfl
  | cons e es ih =>
    obtain ⟨hl, hd⟩ := emit_counted (h e List.mem_cons_self) a
    rw [tracked, hl, ih (fun f hf => h f (List.mem_cons_of_mem e hf)) (a.emit e), hd,
      writtenAll_cons, depths_append]

theorem depth_emit_le_peak {e : Emission} (h : e.isCounted = true) {a : Assembler}
    (ha : a.depth ≤ a.peak) : (a.emit e).depth ≤ (a.emit e).peak ∧ a.peak ≤ (a.emit e).peak := by
  have hadjust (d : Int) : a.depth + d ≤ (max a.peak (a.depth + d).toNat : Nat) ∧
      a.peak ≤ max a.peak (a.depth + d).toNat := by omega
  cases e with
  | instruction op operand => exact hadjust op.effect
  | invoke op method => exact hadjust _
  | branch op target => exact hadjust op.effect
  | openMethod header => contradiction
  | closeMethod locals stack => contradiction
  | _ => exact ⟨ha, Nat.le_refl _⟩

/-- No depth over counted emissions is above the peak at their end. -/
theorem depth_le_peak {es : List Emission} (h : ∀ e ∈ es, e.isCounted = true) {a : Assembler}
    (ha : a.depth ≤ a.peak) :
    a.peak ≤ (a.emitAll es).peak ∧ ∀ x ∈ a.tracked es, x.2 ≤ (a.emitAll es).peak := by
  induction es generalizing a with
  | nil => exact ⟨Nat.le_refl _, fun x hx => absurd hx List.not_mem_nil⟩
  | cons e es ih =>
    have he := h e List.mem_cons_self
    obtain ⟨hd, hp⟩ := depth_emit_le_peak he ha
    obtain ⟨hps, hxs⟩ := ih (fun f hf => h f (List.mem_cons_of_mem e hf)) hd
    rw [emitAll_cons]
    refine ⟨Nat.le_trans hp hps, fun x hx => ?_⟩
    rcases List.mem_append.mp hx with hx | hx
    · obtain ⟨l, -, rfl⟩ := List.mem_map.mp hx
      have hentry : a.entryDepth e = a.depth := by
        cases e with
        | openMethod header => contradiction
        | _ => rfl
      change a.entryDepth e ≤ _
      omega
    · exact hxs x hx

end Assembler

end StackLowering
