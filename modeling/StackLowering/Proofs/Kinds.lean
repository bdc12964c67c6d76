import StackLowering.Proofs.CleanTree

/-!
Kinds of stack entries. Each line takes entries of given kinds and puts entries of given kinds in
their place; the kinds behind a field are read off its descriptor. Tags that agree with each other
fix the kinds: the value of a clean expression has the kind of the expression's tag, so along every
path through the main method of a clean class every line finds the kinds that it takes.
-/
namespace StackLowering

open Listing

/-- What an entry of the operand stack is. -/
inductive Kind where
  | number (n : Numeric)
  | string
  /-- An array of objects. -/
  | array
  /-- A number in an object. -/
  | boxed
  | reference (descriptor : String)
deriving DecidableEq, Repr

namespace Kind

/-- The kind of the values of a field with this descriptor. -/
def ofDescriptor? (descriptor : String) : Option Kind :=
  if descriptor = "I" then some (.number .int)
  else if descriptor = "F" then some (.number .float)
  else if descriptor.toList.head? = some 'L' then some (.reference descriptor)
  else none

/-- The descriptor in a field operand stands behind the last blank. -/
def fieldDescriptor (field : String) : String :=
  String.ofList (field.toList.reverse.takeWhile (· ≠ ' ')).reverse

def ofField? (field : String) : Option Kind := ofDescriptor? (fieldDescriptor field)

end Kind

/-- What invoking a method of the library takes off the stack, the top first, and puts there. -/
def Library.kinds? (op : Opcode) (method : String) : Option (List Kind × List Kind) :=
  match op with
  | .invokeNonVirtual =>
    (supports.find? fun s => method = Descriptor.constructor s.className).map
      fun s => ([.reference s.descriptor], [])
  | .invokeVirtual =>
    if method = printElapsedTime then some ([.reference runTimer.descriptor], [])
    else if method = printf then
      some ([.array, .string, .reference "Ljava/io/PrintStream;"],
        [.reference "Ljava/io/PrintStream;"])
    else none
  | .invokeStatic =>
    if method = boxing .integer then some ([.number .int], [.boxed])
    else if method = boxing .real then some ([.number .float], [.boxed])
    else none
  | _ => none

namespace Line

variable (classify : String → Kind)

/-- What a line takes off the stack, the top first, and puts there, where constants are classified
by their texts. -/
def kinds? : Line → Option (List Kind × List Kind)
  | instruction .ldc (some text) => some ([], [classify text])
  | instruction .getStatic (some field) => (Kind.ofField? field).map fun k => ([], [k])
  | instruction .putStatic (some field) => (Kind.ofField? field).map fun k => ([k], [])
  | instruction (.arith n _) none => some ([.number n, .number n], [.number n])
  | instruction (.neg n) none => some ([.number n], [.number n])
  | instruction .fcmpl none | instruction .fcmpg none =>
    some ([.number .float, .number .float], [.number .int])
  | instruction .new (some className) => some ([], [.reference (Descriptor.object className)])
  | instruction .anewarray (some className) =>
    if className = Library.objectClass then some ([.number .int], [.array]) else none
  | instruction .aastore none => some ([.boxed, .number .int, .array], [])
  | instruction .ret none => some ([], [])
  | instruction op (some method) => Library.kinds? op method
  | instruction _ none => none
  | branch (.ifCompare _) _ => some ([.number .int, .number .int], [])
  | branch (.ifZero _) _ => some ([.number .int], [])
  | branch .goto _ => some ([], [])
  | branch _ _ => none
  | directive _ | comment _ | blank | label _ => some ([], [])

/-- The stack after a line, if the line finds the kinds that it takes. Copying and dropping the top
work at any kind. -/
def kindsAfter? : Line → List Kind → Option (List Kind)
  | instruction .dup none, kind :: stack => some (kind :: kind :: stack)
  | instruction .pop none, _ :: stack => some stack
  | line, stack => (line.kinds? classify).bind fun a =>
    if a.1 <+: stack then some (a.2 ++ stack.drop a.1.length) else none

variable {classify : String → Kind}

theorem kinds?_constant (text : String) :
    (instruction .ldc (some text)).kinds? classify = some ([], [classify text]) := rfl

theorem kinds?_load {field : String} {kind : Kind} (h : Kind.ofField? field = some kind) :
    (instruction .getStatic (some field)).kinds? classify = some ([], [kind]) := by
  change (Kind.ofField? field).map (fun k => ([], [k])) = _
  rw [h, Option.map_some]

theorem kinds?_store {field : String} {kind : Kind} (h : Kind.ofField? field = some kind) :
    (instruction .putStatic (some field)).kinds? classify = some ([kind], []) := by
  change (Kind.ofField? field).map (fun k => ([k], [])) = _
  rw [h, Option.map_some]

theorem kindsAfter?_append {line : Line} {takes gives : List Kind}
    (h : line.kinds? classify = some (takes, gives)) (stack : List Kind) :
    line.kindsAfter? classify (takes ++ stack) = some (gives ++ stack) := by
  unfold kindsAfter?
  split
  · contradiction
  · contradiction
  · simp [h]

end Line

/-- An operation between what it takes and what it gives. -/
theorem aligned_kinds {classify : String → Kind} {op : Opcode} {operand : Option String}
    (takes gives stack : List Kind)
    (h : (Line.instruction op operand).kinds? classify = some (takes, gives)) :
    Aligned (Line.kindsAfter? classify) [] (takes ++ stack) [.instruction op operand]
      (gives ++ stack) :=
  .single (Line.kindsAfter?_append h stack) rfl rfl

namespace Kind

theorem fieldDescriptor_append (front : String) {descriptor : String}
    (h : ' ' ∉ descriptor.toList) : fieldDescriptor (front ++ " " ++ descriptor) = descriptor := by
  have htext : (front ++ " " ++ descriptor).toList.reverse =
      descriptor.toList.reverse ++ ' ' :: front.toList.reverse := by simp
  have hall : ∀ c ∈ descriptor.toList.reverse, (decide (c ≠ ' ')) = true := by
    intro c hc
    rw [decide_eq_true_iff]
    rintro rfl
    exact h (List.mem_reverse.mp hc)
  rw [fieldDescriptor, htext, List.takeWhile_append_of_pos hall]
  simp

theorem fieldDescriptor_text {f : FieldRef} (h : ' ' ∉ f.descriptor.toList) :
    fieldDescriptor f.text = f.descriptor := fieldDescriptor_append (f.owner ++ "/" ++ f.name) h

theorem ofField?_fieldFor {scope : Scope} {v : Variable} {n : Numeric} (h : scope.Holds v)
    (hn : v.tag = n.tag) : ofField? (scope.fieldFor v).text = some (.number n) := by
  have hd : (scope.fieldFor v).descriptor =
      (Descriptor.ofTag? n.tag).getD Descriptor.placeholder := by
    simp [Scope.fieldFor, Scope.field, Scope.storageTag, h.1, hn]
  have hblank : ' ' ∉ (scope.fieldFor v).descriptor.toList := by
    rw [hd]
    cases n <;> decide
  rw [ofField?, fieldDescriptor_text hblank, hd]
  cases n <;> rfl

theorem ofField?_support {scope : Scope} {s : Library.Support} (h : s ∈ Library.supports) :
    ofField? (scope.field s.field s.descriptor).text = some (.reference s.descriptor) := by
  have hblank : ' ' ∉ s.descriptor.toList := by
    revert s
    decide
  rw [ofField?, fieldDescriptor_text (f := scope.field s.field s.descriptor) hblank]
  change ofDescriptor? s.descriptor = some (.reference s.descriptor)
  clear hblank
  revert s
  decide

theorem ofField?_systemOut :
    ofField? Library.systemOut = some (.reference "Ljava/io/PrintStream;") := by decide

end Kind

variable {classify : String → Kind} {scope : Scope}

namespace Expr

/-- The tags of arithmetic and negation are those of the operands, and literals are classified by
their tags. -/
def Consistent (classify : String → Kind) : Expr → Prop
  | literal _ text tag _ => ∀ n : Numeric, tag = n.tag → classify text = .number n
  | var _ => True
  | binary (.arithmetic _) left right tag _ =>
    left.Consistent classify ∧ right.Consistent classify ∧ tag = left.tag ∧ tag = right.tag
  | binary (.relation _) left right _ _ => left.Consistent classify ∧ right.Consistent classify
  | negate operand tag _ => operand.Consistent classify ∧ tag = operand.tag

/-- The value of a clean expression has the kind of its tag. -/
theorem code_kinds {e : Expr} (hclean : e.Clean scope) (hcons : e.Consistent classify)
    {n : Numeric} (hn : e.tag = n.tag) (stack : List Kind) :
    Aligned (Line.kindsAfter? classify) [] stack (e.code scope) (.number n :: stack) := by
  induction e generalizing n stack with
  | literal kind text tag span =>
    rw [← hcons n hn]
    exact aligned_kinds [] [classify text] stack (Line.kinds?_constant text)
  | var v =>
    exact aligned_kinds [] [.number n] stack (Line.kinds?_load (Kind.ofField?_fieldFor hclean hn))
  | binary op left right tag span ihl ihr =>
    cases op with
    | relation rel => exact hclean.elim
    | arithmetic op =>
      obtain ⟨hl, hr, -⟩ := hclean
      obtain ⟨hcl, hcr, htl, htr⟩ := hcons
      have hleft : left.tag = n.tag := htl.symm.trans hn
      have hright : right.tag = n.tag := htr.symm.trans hn
      rw [code, hleft, hright, Operator.arithmeticOr_tag]
      exact ((ihl hl hcl hleft stack).append (ihr hr hcr hright _)).append
        (aligned_kinds [.number n, .number n] [.number n] stack rfl)
  | negate operand tag span ih =>
    obtain ⟨ho, -⟩ := hclean
    obtain ⟨hco, ht⟩ := hcons
    have hoperand : operand.tag = n.tag := ht.symm.trans hn
    rw [code, hoperand, Tag.negationOr_tag]
    exact (ih ho hco hoperand stack).append (aligned_kinds [.number n] [.number n] stack rfl)

/-- A jump takes two numbers of the kind that it compares. -/
theorem jump_kinds (rel : Relation) (n : Numeric) (target : Label) :
    Aligned (Line.kindsAfter? classify) [] [.number n, .number n] ((rel.jump n).lines target)
      [] := by
  cases n with
  | int => exact .branch rfl .nil
  | float =>
    have hcompare : (Line.instruction rel.floatCompare none).kinds? classify =
        some ([.number .float, .number .float], [.number .int]) := by cases rel <;> rfl
    exact (aligned_kinds _ _ [] hcompare).append (.branch rfl .nil)

theorem branchCode_kinds {e : Expr} (hclean : e.CleanCondition scope)
    (hcons : e.Consistent classify) (target : Label) :
    Aligned (Line.kindsAfter? classify) [] [] (e.branchCode scope target) [] := by
  match e with
  | binary (.relation rel) left right tag span =>
    obtain ⟨hl, hr, hcommon⟩ := hclean
    obtain ⟨n, hleft, hright⟩ := Tag.commonNumeric?_isSome_iff.mp hcommon
    rw [branchCode, hleft, hright, Operator.comparisonOr_tag]
    exact ((code_kinds hl hcons.1 hleft []).append (code_kinds hr hcons.2 hright _)).append
      (jump_kinds rel n target)

end Expr

/-- Filling the array keeps it on top of the stack. -/
theorem argumentsCode_kinds {args : List Expr} {index : Nat}
    (hclean : ∀ arg ∈ args, arg.Clean scope ∧ arg.tag.isNumeric = true)
    (hcons : ∀ arg ∈ args, arg.Consistent classify)
    (hindex : ∀ i, i < index + args.length → classify (toString i) = .number .int)
    (stack : List Kind) :
    Aligned (Line.kindsAfter? classify) [] (.array :: stack) (argumentsCode scope index args)
      (.array :: stack) := by
  induction args generalizing index with
  | nil => exact .nil
  | cons arg args ih =>
    obtain ⟨hc, hnum⟩ := hclean arg List.mem_cons_self
    obtain ⟨n, hn⟩ := Tag.isNumeric_iff.mp hnum
    have hldc : (Line.instruction .ldc (some (toString index))).kinds? classify =
        some ([], [.number .int]) := by
      rw [Line.kinds?_constant, hindex index (by simp)]
    have hopen : Aligned (Line.kindsAfter? classify) [] (.array :: stack)
        [.instruction .dup none, .instruction .ldc (some (toString index))]
        (.number .int :: .array :: .array :: stack) :=
      .cons rfl rfl rfl (aligned_kinds [] [.number .int] (.array :: .array :: stack) hldc)
    have hvalue := arg.code_kinds hc (hcons arg List.mem_cons_self) hn
      (.number .int :: .array :: .array :: stack)
    have hbox : (Line.instruction .invokeStatic (some (Library.boxing arg.tag))).kinds? classify =
        some ([.number n], [.boxed]) := by
      rw [hn]
      cases n <;> rfl
    have hclose : Aligned (Line.kindsAfter? classify) []
        (.number n :: .number .int :: .array :: .array :: stack)
        [.instruction .invokeStatic (some (Library.boxing arg.tag)), .instruction .aastore none]
        (.array :: stack) :=
      (aligned_kinds _ _ (.number .int :: .array :: .array :: stack) hbox).append
        (aligned_kinds [.boxed, .number .int, .array] [] (.array :: stack) rfl)
    refine ((hopen.append hvalue).append hclose).append (ih ?_ ?_ ?_)
    · exact fun a ha => hclean a (List.mem_cons_of_mem arg ha)
    · exact fun a ha => hcons a (List.mem_cons_of_mem arg ha)
    · intro i hi
      exact hindex i (by rw [List.length_cons]; omega)

/-- Consistent tags and classes in every part of a statement: sizes and indexes of arrays are
integers, and quoted text is a string. -/
def consistentParts (classify : String → Kind) : PartProperty where
  assign _ value := value.Consistent classify
  cond cond := cond.Consistent classify
  print format args :=
    (∀ arg ∈ args, arg.Consistent classify) ∧
      (∀ i, i ≤ args.length → classify (toString i) = .number .int) ∧
      ∀ text, formatText? format = some text → classify s!"\"{text}\"" = .string

theorem printCode_kinds {text : String} {args : List Expr}
    (hclean : ∀ arg ∈ args, arg.Clean scope ∧ arg.tag.isNumeric = true)
    (hcons : ∀ arg ∈ args, arg.Consistent classify)
    (hindex : ∀ i, i ≤ args.length → classify (toString i) = .number .int)
    (htext : classify s!"\"{text}\"" = .string) :
    Aligned (Line.kindsAfter? classify) [] [] (printCode scope text args) [] := by
  have hformat : (Line.instruction .ldc (some s!"\"{text}\"")).kinds? classify =
      some ([], [.string]) := by rw [Line.kinds?_constant, htext]
  have hsize : (Line.instruction .ldc (some (toString args.length))).kinds? classify =
      some ([], [.number .int]) := by
    rw [Line.kinds?_constant, hindex _ (Nat.le_refl _)]
  have hopen : Aligned (Line.kindsAfter? classify) [] []
      [.instruction .getStatic (some Library.systemOut), .instruction .ldc (some s!"\"{text}\""),
        .instruction .ldc (some (toString args.length)),
        .instruction .anewarray (some Library.objectClass)]
      [.array, .string, .reference "Ljava/io/PrintStream;"] :=
    (aligned_kinds [] _ [] (Line.kinds?_load Kind.ofField?_systemOut)).append
      ((aligned_kinds [] [.string] _ hformat).append
        ((aligned_kinds [] [.number .int] _ hsize).append
          (aligned_kinds [.number .int] [.array] _ rfl)))
  have hargs : Aligned (Line.kindsAfter? classify) []
      [.array, .string, .reference "Ljava/io/PrintStream;"] (argumentsCode scope 0 args)
      [.array, .string, .reference "Ljava/io/PrintStream;"] :=
    argumentsCode_kinds hclean hcons (fun i hi => hindex i (by omega)) _
  have hclose : Aligned (Line.kindsAfter? classify) []
      [.array, .string, .reference "Ljava/io/PrintStream;"]
      [.instruction .invokeVirtual (some Library.printf), .instruction .pop none] [] :=
    (aligned_kinds [.array, .string, .reference "Ljava/io/PrintStream;"]
      [.reference "Ljava/io/PrintStream;"] [] rfl).append (.single rfl rfl rfl)
  exact (hopen.append hargs).append hclose

theorem keeps_kinds (classify : String → Kind) (scope : Scope) :
    Keeps (Line.kindsAfter? classify) [] scope
      ((cleanParts scope).and (consistentParts classify)) where
  still line h := by cases h <;> rfl
  assign target value h := by
    obtain ⟨⟨hv, ht, htag⟩, hcons⟩ := h
    obtain ⟨n, hn⟩ := Tag.isNumeric_iff.mp ht.2
    exact (Expr.code_kinds hv hcons (htag.trans hn) []).append
      (aligned_kinds [.number n] [] [] (Line.kinds?_store (Kind.ofField?_fieldFor ht hn)))
  cond cond target h := Expr.branchCode_kinds h.1 h.2 target
  print format args text h hf :=
    printCode_kinds h.1.2 h.2.1 h.2.2.1 (h.2.2.2 text hf)

namespace Scope

theorem supportCode_kinds (scope : Scope) {s : Library.Support} (hs : s ∈ Library.supports) :
    Aligned (Line.kindsAfter? classify) [] [] (scope.supportCode s) [] := by
  have hinit : (Line.instruction .invokeNonVirtual
      (some (Descriptor.constructor s.className))).kinds? classify =
        some ([.reference s.descriptor], []) := by
    change Library.kinds? .invokeNonVirtual (Descriptor.constructor s.className) = _
    revert s
    decide
  have hnew : (Line.instruction .new (some s.className)).kinds? classify =
      some ([], [.reference s.descriptor]) := rfl
  have hstore : (Line.instruction .putStatic
      (some (scope.field s.field s.descriptor).text)).kinds? classify =
        some ([.reference s.descriptor], []) :=
    Line.kinds?_store (Kind.ofField?_support hs)
  rw [supportCode]
  generalize s.descriptor = d at hinit hnew hstore ⊢
  exact (aligned_kinds [] [.reference d] [] hnew).append (.cons rfl rfl rfl
    ((aligned_kinds [.reference d] [] [.reference d] hinit).append
      (aligned_kinds [.reference d] [] [] hstore)))

theorem epilogueCode_kinds (scope : Scope) :
    Aligned (Line.kindsAfter? classify) [] [] scope.epilogueCode [] := by
  have hload : Kind.ofField? (scope.field Library.runTimer.field Library.runTimer.descriptor).text =
      some (.reference Library.runTimer.descriptor) := Kind.ofField?_support (by decide)
  have hreport : (Line.instruction .invokeVirtual (some Library.printElapsedTime)).kinds?
      classify = some ([.reference Library.runTimer.descriptor], []) := rfl
  exact .cons rfl rfl rfl ((aligned_kinds [] _ [] (Line.kinds?_load hload)).append
    ((aligned_kinds _ [] [] hreport).append (.cons rfl rfl rfl (aligned_kinds [] [] [] rfl))))

end Scope

namespace Program

/-- Every path through the main method of a clean class with consistent tags finds at each line
entries of the kinds that the line takes. -/
theorem operand_kinds_safe {p : Program} {options : Options} {u : ClassUnit}
    (h : p.unit options = .ok u) (hclean : u.warnings = [])
    (hcons : EveryPart (consistentParts classify) p.body) {i : Nat} {stack : List Kind}
    (hr : Reaches (Line.kindsAfter? classify) u.listing (mainEntry u.listing) [] i stack) :
    ∃ line, u.listing[i]? = some line ∧ (line.kindsAfter? classify stack).isSome = true := by
  have hall := mainCode_aligned (keeps_kinds classify (p.scope options))
    ((everyPart_clean h hclean).and hcons) (fun _ hs => Scope.supportCode_kinds _ hs)
    (Scope.epilogueCode_kinds _)
  obtain ⟨front, line, back, hcode, rfl, hfront⟩ := reaches_main h hall hr
  rw [hcode] at hall
  obtain ⟨before, after, hbefore, hafter, -⟩ := hall.at_line
  cases hbefore.unique hfront
  refine ⟨line, ?_, ?_⟩
  · rw [listing_eq h, hcode]
    simp
  · rw [hafter]
    rfl

/-- Texts in quotes are strings, and numbers with a point are floats. -/
def classifyText (text : String) : Kind :=
  if text.toList.head? = some '"' then .string
  else if '.' ∈ text.toList then .number .float
  else .number .int

theorem countdown_consistent : EveryPart (consistentParts classifyText) countdown.body := by
  have hint {text : String} (h : classifyText text = .number .int) :
      ∀ n : Numeric, Tag.integer = n.tag → classifyText text = .number n := by
    rintro (_ | _) hn
    · exact h
    · exact absurd hn (by decide)
  have hreal {text : String} (h : classifyText text = .number .float) :
      ∀ n : Numeric, Tag.real = n.tag → classifyText text = .number n := by
    rintro (_ | _) hn
    · exact absurd hn (by decide)
    · exact h
  have hindex : ∀ i, i ≤ 1 → classifyText (toString i) = .number .int
    | 0, _ => by decide
    | 1, _ => by decide
  have hformat : ∀ text, formatText? "'%d below zero\\n'" = some text →
      classifyText s!"\"{text}\"" = .string := by
    intro text ht
    cases (by decide : formatText? "'%d below zero\\n'" = some "%d below zero\\n").symm.trans ht
    decide
  simp only [countdown, EveryPart, Stmt.Every, consistentParts, Expr.Consistent, Expr.tag,
    List.mem_singleton, forall_eq, true_and, and_true]
  exact ⟨hint (by decide), hreal (by decide), ⟨⟨hreal (by decide), hindex, hformat⟩,
    hint (by decide)⟩, hint (by decide)⟩

theorem countdown_operand_kinds_safe :
    ∃ u, countdown.unit {} = .ok u ∧ u.warnings = [] ∧
      EveryPart (consistentParts classifyText) countdown.body ∧
      Reaches (Line.kindsAfter? classifyText) u.listing (mainEntry u.listing) []
        (mainEntry u.listing) [] ∧
      (∃ line, u.listing[mainEntry u.listing]? = some line ∧
        (line.kindsAfter? classifyText []).isSome = true) ∧
      ∀ i stack,
        Reaches (Line.kindsAfter? classifyText) u.listing (mainEntry u.listing) [] i stack →
          ∃ line, u.listing[i]? = some line ∧
            (line.kindsAfter? classifyText stack).isSome = true := by
  obtain ⟨u, hu, hw⟩ := countdown_unit
  exact ⟨u, hu, hw, countdown_consistent, .start,
    operand_kinds_safe hu hw countdown_consistent .start,
    fun i stack hr => operand_kinds_safe hu hw countdown_consistent hr⟩

end Program

end StackLowering
