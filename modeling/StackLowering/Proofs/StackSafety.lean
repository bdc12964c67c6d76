import StackLowering.Proofs.Alignment

/-!
Safety of the operand stack. Code of a value adds one to the depth, and code of an assignment, a
condition or a print leaves an empty stack empty, placeholders included. So all paths through the
main method meet each line at the depth that was kept when the line was emitted, and the directive
at the end of the method is large enough for all of them.
-/
namespace StackLowering

open Listing

/-- The depth after a line, if the line finds on the stack what it pops. -/
def Line.depthAfter? (line : Line) (d : Nat) : Option Nat :=
  line.arity?.bind fun a => if a.1 ≤ d then some (d - a.1 + a.2) else none

namespace Line

theorem depthAfter?_eq_some_iff {line : Line} {d e : Nat} :
    line.depthAfter? d = some e ↔
      ∃ pops pushes, line.arity? = some (pops, pushes) ∧ pops ≤ d ∧ e = d - pops + pushes := by
  unfold depthAfter?
  constructor
  · intro h
    obtain ⟨⟨pops, pushes⟩, ha, h⟩ := Option.bind_eq_some_iff.mp h
    split at h
    · cases h
      exact ⟨pops, pushes, ha, ‹_›, rfl⟩
    · contradiction
  · rintro ⟨pops, pushes, ha, hp, rfl⟩
    simp [ha, hp]

/-- A line that finds what it pops. -/
theorem depthAfter?_add {line : Line} (d pops pushes : Nat)
    (h : line.arity? = some (pops, pushes)) : line.depthAfter? (d + pops) = some (d + pushes) :=
  depthAfter?_eq_some_iff.mpr ⟨pops, pushes, h, Nat.le_add_left pops d, by omega⟩

theorem net_of_depthAfter? {line : Line} {d e : Nat} (h : line.depthAfter? d = some e) :
    (e : Int) = d + line.net := by
  obtain ⟨pops, pushes, ha, hp, rfl⟩ := depthAfter?_eq_some_iff.mp h
  simp only [net, ha]
  omega

end Line

/-- The depth along aligned code is the sum of the changes. -/
theorem Listing.Aligned.depth_eq {ls : List Line} {d e : Nat}
    (h : Aligned Line.depthAfter? 0 d ls e) : (e : Int) = d + (ls.map Line.net).sum := by
  induction ls generalizing d with
  | nil =>
    cases h
    simp
  | cons line ls ih =>
    obtain ⟨f, hf, -, -, h⟩ := h
    rw [ih h, Line.net_of_depthAfter? hf, List.map_cons, List.sum_cons, Int.add_assoc]

/-- A plain operation between what it pops and what it pushes. -/
theorem aligned_operation {op : Opcode} {operand : Option String} (d pops pushes : Nat)
    (h : (Line.instruction op operand).arity? = some (pops, pushes)) :
    Aligned Line.depthAfter? 0 (d + pops) [.instruction op operand] (d + pushes) :=
  .single (Line.depthAfter?_add d pops pushes h) rfl rfl

theorem Expr.code_depth (scope : Scope) (e : Expr) (d : Nat) :
    Aligned Line.depthAfter? 0 d (e.code scope) (d + 1) := by
  induction e generalizing d with
  | literal kind text tag span => exact aligned_operation d 0 1 rfl
  | var v => exact aligned_operation d 0 1 rfl
  | binary op left right tag span ihl ihr =>
    exact ((ihl d).append (ihr (d + 1))).append
      (aligned_operation d 2 1 (op.arity?_arithmeticOr _ _))
  | negate operand tag span ih =>
    exact (ih d).append (aligned_operation d 1 1 operand.tag.arity?_negationOr)

/-- A jump takes the two values that it compares. -/
theorem Operator.lines_depth (op : Operator) (left right : Tag) (target : Label) :
    Aligned Line.depthAfter? 0 2 ((op.comparisonOr left right).lines target) 0 := by
  rcases op.comparisonOr_cases left right with ⟨b, hj, hb⟩ | ⟨c, b, hj, hc, hb⟩
  · rw [hj]
    exact .branch (Line.depthAfter?_add 0 2 0 hb) .nil
  · rw [hj]
    have hcompare : (Line.instruction c none).arity? = some (2, 1) := hc
    exact (aligned_operation 0 2 1 hcompare).append (.branch (Line.depthAfter?_add 0 1 0 hb) .nil)

theorem Expr.branchCode_depth (scope : Scope) (target : Label) (e : Expr) :
    Aligned Line.depthAfter? 0 0 (e.branchCode scope target) 0 := by
  cases e with
  | binary op left right tag span =>
    exact ((left.code_depth scope 0).append (right.code_depth scope 1)).append
      (op.lines_depth left.tag right.tag target)
  | _ => exact .nil

/-- Filling the array keeps it on top of the stack. -/
theorem argumentsCode_depth (scope : Scope) (index : Nat) (args : List Expr) (d : Nat) :
    Aligned Line.depthAfter? 0 (d + 1) (argumentsCode scope index args) (d + 1) := by
  induction args generalizing index with
  | nil => exact .nil
  | cons arg args ih =>
    have hopen : Aligned Line.depthAfter? 0 (d + 1)
        [.instruction .dup none, .instruction .ldc (some (toString index))] (d + 3) :=
      (aligned_operation d 1 2 rfl).append (aligned_operation (d + 2) 0 1 rfl)
    have hbox : (Line.instruction .invokeStatic (some (Library.boxing arg.tag))).arity? =
        some (1, 1) := Library.arity?_boxing arg.tag
    have hclose : Aligned Line.depthAfter? 0 (d + 4)
        [.instruction .invokeStatic (some (Library.boxing arg.tag)), .instruction .aastore none]
        (d + 1) :=
      (aligned_operation (d + 3) 1 1 hbox).append (aligned_operation (d + 1) 3 0 rfl)
    exact ((hopen.append (arg.code_depth scope (d + 3))).append hclose).append (ih (index + 1))

theorem printCode_depth (scope : Scope) (text : String) (args : List Expr) :
    Aligned Line.depthAfter? 0 0 (printCode scope text args) 0 := by
  have hopen : Aligned Line.depthAfter? 0 0 [.instruction .getStatic (some Library.systemOut),
      .instruction .ldc (some s!"\"{text}\""), .instruction .ldc (some (toString args.length)),
      .instruction .anewarray (some Library.objectClass)] 3 :=
    (aligned_operation 0 0 1 rfl).append ((aligned_operation 1 0 1 rfl).append
      ((aligned_operation 2 0 1 rfl).append (aligned_operation 2 1 1 rfl)))
  have hprintf : (Line.instruction .invokeVirtual (some Library.printf)).arity? = some (3, 1) :=
    Library.arity?_printf
  have hclose : Aligned Line.depthAfter? 0 3 [.instruction .invokeVirtual (some Library.printf),
      .instruction .pop none] 0 :=
    (aligned_operation 0 3 1 hprintf).append (aligned_operation 0 1 0 rfl)
  exact (hopen.append (argumentsCode_depth scope 0 args 2)).append hclose

/-- Code of any parts leaves an empty stack empty. -/
theorem keeps_depth (scope : Scope) :
    Keeps Line.depthAfter? 0 scope ⟨fun _ _ => True, fun _ => True, fun _ _ => True⟩ where
  still line h := by cases h <;> rfl
  assign target value _ := (value.code_depth scope 0).append (aligned_operation 0 1 0 rfl)
  cond cond target _ := cond.branchCode_depth scope target
  print format args text _ _ := printCode_depth scope text args

namespace Scope

theorem supportCode_depth (scope : Scope) {s : Library.Support} (hs : s ∈ Library.supports) :
    Aligned Line.depthAfter? 0 0 (scope.supportCode s) 0 := by
  have hinit : (Line.instruction .invokeNonVirtual
      (some (Descriptor.constructor s.className))).arity? = some (1, 0) :=
    Library.arity?_constructor hs
  exact (aligned_operation 0 0 1 rfl).append ((aligned_operation 0 1 2 rfl).append
    ((aligned_operation 1 1 0 hinit).append (aligned_operation 0 1 0 rfl)))

theorem epilogueCode_depth (scope : Scope) :
    Aligned Line.depthAfter? 0 0 scope.epilogueCode 0 := by
  have hreport : (Line.instruction .invokeVirtual (some Library.printElapsedTime)).arity? =
      some (1, 0) := Library.arity?_printElapsedTime
  exact .cons rfl rfl rfl ((aligned_operation 0 0 1 rfl).append
    ((aligned_operation 0 1 0 hreport).append (.cons rfl rfl rfl (aligned_operation 0 0 0 rfl))))

end Scope

/-! Directives that limit the stack. -/

/-- Texts with beginnings that differ at a place do not begin with each other. -/
theorem not_prefix_append {start front rest : String} (i : Nat) (hs : i < start.toList.length)
    (hf : i < front.toList.length) (h : start.toList[i]? ≠ front.toList[i]?) :
    ¬ start.toList <+: (front ++ rest).toList := by
  rintro ⟨back, hback⟩
  apply append_ne_append (x := String.ofList back) (y := rest) i hs hf h
  apply String.toList_injective
  rw [← hback, String.toList_append, String.toList_ofList]

/-- Whether a line limits the operand stack of its method. -/
def Line.isStackLimit : Line → Bool
  | directive text => ".limit stack ".toList.isPrefixOf text.toList
  | _ => false

theorem Line.isStackLimit_limit (n : Nat) :
    (directive s!".limit stack {n}").isStackLimit = true := by
  apply List.isPrefixOf_iff_prefix.mpr
  change _ <+: (".limit stack " ++ toString n).toList
  rw [String.toList_append]
  exact List.prefix_append _ _

namespace Listing

/-- The directives that limit the operand stack. -/
def stackLimits (ls : List Line) : List Line := ls.filter Line.isStackLimit

theorem stackLimits_append (ls ms : List Line) :
    stackLimits (ls ++ ms) = stackLimits ls ++ stackLimits ms := List.filter_append ls ms

theorem stackLimits_eq_nil {ls : List Line}
    (h : ∀ text, .directive text ∈ ls → ¬ ".limit stack ".toList <+: text.toList) :
    stackLimits ls = [] := by
  apply List.filter_eq_nil_iff.mpr
  intro line hm
  cases line with
  | directive text =>
    intro hlimit
    exact h text hm (List.isPrefixOf_iff_prefix.mp hlimit)
  | _ => exact Bool.false_ne_true

/-- A directive that limits the stack, behind lines that do not. -/
theorem stackLimits_append_singleton {ls : List Line} (h : stackLimits ls = []) (n : Nat) :
    stackLimits (ls ++ [.directive s!".limit stack {n}"]) = [.directive s!".limit stack {n}"] := by
  rw [stackLimits_append, h, List.nil_append, stackLimits,
    List.filter_cons_of_pos (Line.isStackLimit_limit n)]
  rfl

end Listing

namespace Program

/-- The lines of a program's class, each with the depth that was kept when it was emitted. -/
def tracked (p : Program) (options : Options) : List (Line × Int) :=
  Assembler.tracked {} (p.lower options).emissions

theorem isCounted_of_mem_mainEmissions {p : Program} {options : Options}
    (h : (lowerAll (p.scope options) ⟨0, 0⟩ p.body).result = .ok (afterAll ⟨0, 0⟩ p.body))
    {e : Emission} (he : e ∈ p.mainEmissions options) : e.isCounted = true := by
  obtain ⟨-, hw⟩ := lowerAll_writes _ _ _ h
  simp only [mainEmissions, List.mem_append, List.mem_cons, List.not_mem_nil, or_false] at he
  rcases he with (he | he) | rfl | rfl | rfl | rfl | rfl
  · obtain ⟨s, hs, he⟩ := List.mem_flatMap.mp he
    simp only [Scope.makeSupport, List.mem_cons, List.not_mem_nil, or_false] at he
    rcases he with rfl | rfl | rfl | rfl
    · rfl
    · rfl
    · rw [Emission.isCounted_invoke, Library.arity?_constructor hs]
      rfl
    · rfl
  · exact hw.counted e he
  all_goals rfl

/-- Over the main method, the depth that was kept is the one that its lines give. -/
theorem tracked_eq {p : Program} {options : Options} (h : (p.lower options).result = .ok ()) :
    ∃ first last, p.tracked options =
        first ++ depths 0 (.blank :: p.mainCode options) ++ last ∧
      first.length = (p.opening options).length ∧
      ∀ x ∈ depths 0 (.blank :: p.mainCode options), x.2 ≤ p.stackLimit options := by
  obtain ⟨hb, he⟩ := lower_ok h
  have hcounted : ∀ e ∈ p.mainEmissions options, e.isCounted = true :=
    fun e => isCounted_of_mem_mainEmissions hb
  have hmain : (p.atMain options).tracked (p.mainEmissions options) =
      depths 0 (p.mainCode options) := by
    rw [Assembler.tracked_counted hcounted, depth_atMain, writtenAll_mainEmissions hb]
  have hpeak := Assembler.depth_le_peak hcounted (a := p.atMain options) (by simp)
  rw [hmain] at hpeak
  refine ⟨Assembler.tracked {} (p.preamble options) ++ [(mainLine, 0)],
    ((p.atMain options).emitAll (p.mainEmissions options)).tracked
      [.closeMethod options.localsLimit options.stackLimit], ?_, ?_, ?_⟩
  · have hopen : Assembler.tracked {} (p.lower options).emissions =
        Assembler.tracked {} (p.preamble options) ++
          ([(mainLine, 0), (.blank, 0)] ++ ((p.atMain options).tracked (p.mainEmissions options) ++
            ((p.atMain options).emitAll (p.mainEmissions options)).tracked
              [.closeMethod options.localsLimit options.stackLimit])) := by
      rw [he, atMain, List.append_assoc, Assembler.tracked_append, List.cons_append,
        Assembler.tracked, Assembler.tracked_append, Assembler.emitAll_append]
      rfl
    rw [tracked, hopen, hmain]
    simp [depths, Line.net, Line.arity?]
  · rw [opening, List.length_append, List.length_append, ← Assembler.map_fst_tracked,
      List.length_map]
    rfl
  · intro x hx
    unfold stackLimit
    rcases List.mem_cons.mp hx with rfl | hx
    · change (0 : Int) ≤ _
      omega
    · have hx := hpeak.2 x (by simpa [Line.net, Line.arity?] using hx)
      omega

/-- The only directives inside the main method give the current source line. -/
theorem exists_of_directive_mem_mainCode {p : Program} {options : Options} {text : String}
    (h : .directive text ∈ p.mainCode options) : ∃ n, text = lineDirectiveText n := by
  simp only [mainCode, List.mem_append] at h
  rcases h with (h | h) | h
  · simp [Scope.prologueCode, Scope.supportCode] at h
  · rcases still_or_operates_of_mem_codeAll h with h | ⟨op, hop, -⟩
    · cases h with
      | lineDirective n => exact ⟨n, rfl⟩
    · contradiction
  · simp [Scope.epilogueCode] at h

/-- From its entry on, the main method has one stack directive. -/
theorem stackLimits_drop_mainEntry {p : Program} {options : Options} {u : ClassUnit}
    (h : p.unit options = .ok u) :
    stackLimits (u.listing.drop (mainEntry u.listing)) =
      [.directive s!".limit stack {p.stackLimit options}"] := by
  have hfront : stackLimits (.blank :: p.mainCode options ++
      [.blank, .directive s!".limit locals {options.localsLimit}"]) = [] := by
    apply stackLimits_eq_nil
    intro text hm
    simp only [List.mem_append, List.mem_cons, List.not_mem_nil, or_false, reduceCtorEq,
      false_or, Line.directive.injEq] at hm
    rcases hm with hm | rfl
    · obtain ⟨n, rfl⟩ := exists_of_directive_mem_mainCode hm
      exact not_prefix_append 3 (by decide) (by decide) (by decide)
    · exact not_prefix_append 7 (by decide) (by decide) (by decide)
  have hend : stackLimits [.directive ".end method"] = [] := by decide
  have hlines : .blank :: p.mainCode options ++ closing options (p.stackLimit options) =
      .blank :: p.mainCode options ++
        [.blank, .directive s!".limit locals {options.localsLimit}"] ++
        [.directive s!".limit stack {p.stackLimit options}"] ++ [.directive ".end method"] := by
    simp [closing]
  rw [mainEntry_listing h, listing_eq h, List.append_assoc, List.drop_left, hlines,
    stackLimits_append, stackLimits_append_singleton hfront, hend, List.append_nil]

theorem stack_directive_mem_iff {p : Program} {options : Options} {u : ClassUnit}
    (h : p.unit options = .ok u) (n : Nat) :
    .directive s!".limit stack {n}" ∈ u.listing.drop (mainEntry u.listing) ↔
      n = p.stackLimit options := by
  have hmem : .directive s!".limit stack {n}" ∈ u.listing.drop (mainEntry u.listing) ↔
      .directive s!".limit stack {n}" ∈ stackLimits (u.listing.drop (mainEntry u.listing)) := by
    rw [stackLimits, List.mem_filter, and_iff_left (Line.isStackLimit_limit n)]
  rw [hmem, stackLimits_drop_mainEntry h, List.mem_singleton]
  constructor
  · intro heq
    exact toString_injective ((String.append_right_inj _).mp (Line.directive.inj heq))
  · rintro rfl
    rfl

theorem mainCode_depth (p : Program) (options : Options) :
    Aligned Line.depthAfter? 0 0 (.blank :: p.mainCode options) 0 :=
  mainCode_aligned (keeps_depth _)
    (everyPart_of_forall (fun _ _ => trivial) (fun _ => trivial) (fun _ _ => trivial) _)
    (fun _ hs => Scope.supportCode_depth _ hs) (Scope.epilogueCode_depth _)

/-- Every path through the main method of a class finds at each line what the line pops. The depth
there is the one that was kept when the line was emitted, so it does not depend on the path. It is
zero at labels and at the return, and the number in the method's stack directive bounds it. -/
theorem operand_stack_safe {p : Program} {options : Options} {u : ClassUnit}
    (h : p.unit options = .ok u) :
    (p.tracked options).map Prod.fst = u.listing ∧
      ∃ limit : Nat,
        (∀ n : Nat, .directive s!".limit stack {n}" ∈ u.listing.drop (mainEntry u.listing) ↔
          n = limit) ∧
        ∀ i d, Reaches Line.depthAfter? u.listing (mainEntry u.listing) 0 i d →
          ∃ line pops pushes, (p.tracked options)[i]? = some (line, (d : Int)) ∧
            line.arity? = some (pops, pushes) ∧ pops ≤ d ∧
            (line.defined?.isSome ∨ line.opcode? = some .ret → d = 0) ∧ d ≤ limit := by
  obtain ⟨hr, hl, -⟩ := unit_eq_ok h
  refine ⟨(Assembler.map_fst_tracked _ _).trans hl.symm, p.stackLimit options,
    stack_directive_mem_iff h, fun i d hreach => ?_⟩
  obtain ⟨first, last, htracked, hlength, hlimit⟩ := tracked_eq hr
  have hall := mainCode_depth p options
  obtain ⟨front, line, back, hcode, rfl, hfront⟩ := reaches_main h hall hreach
  -- The depth on the path and the depth that was kept are both the sum of the changes before.
  have hdepths : (depths 0 (.blank :: p.mainCode options))[front.length]? =
      some (line, (d : Int)) := by
    rw [hcode, getElem?_depths, hfront.depth_eq]
    rfl
  have hat : (p.tracked options)[(p.opening options).length + front.length]? =
      some (line, (d : Int)) := by
    obtain ⟨hlt, -⟩ := List.getElem?_eq_some_iff.mp hdepths
    rw [htracked, ← hlength, List.append_assoc, List.getElem?_append_right (by omega),
      Nat.add_sub_cancel_left, List.getElem?_append_left hlt, hdepths]
  have hle : (d : Int) ≤ p.stackLimit options := hlimit _ (List.mem_of_getElem? hdepths)
  rw [hcode] at hall
  obtain ⟨e, f, he, hf, hlabel, -, hnext⟩ := hall.at_line
  cases he.unique hfront
  obtain ⟨pops, pushes, ha, hp, rfl⟩ := Line.depthAfter?_eq_some_iff.mp hf
  refine ⟨line, pops, pushes, hat, ha, hp, ?_, by omega⟩
  rintro (hdef | hret)
  · exact hlabel hdef
  · obtain ⟨rfl, rfl⟩ := eq_nil_of_return hcode hret
    cases ha
    simpa using hnext.unique hall

theorem countdown_operand_stack_safe :
    ∃ u, countdown.unit {} = .ok u ∧ ∃ limit : Nat,
      .directive s!".limit stack {limit}" ∈ u.listing.drop (mainEntry u.listing) ∧
      ∀ i d, Reaches Line.depthAfter? u.listing (mainEntry u.listing) 0 i d →
        d ≤ limit ∧ ∃ line, u.listing[i]? = some line ∧ (line.depthAfter? d).isSome := by
  obtain ⟨u, hu, -⟩ := countdown_unit
  obtain ⟨hl, limit, hlimit, hsafe⟩ := operand_stack_safe hu
  refine ⟨u, hu, limit, (hlimit limit).mpr rfl, fun i d hr => ?_⟩
  obtain ⟨line, pops, pushes, hat, ha, hp, -, hd⟩ := hsafe i d hr
  refine ⟨hd, line, ?_, ?_⟩
  · rw [← hl, List.getElem?_map, hat]
    rfl
  · rw [Line.depthAfter?_eq_some_iff.mpr ⟨pops, pushes, ha, hp, rfl⟩]
    rfl

end Program

end StackLowering
