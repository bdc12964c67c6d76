import StackLowering.Proofs.Failure
import StackLowering.Proofs.Methods

/-!
The operand stack that a tree needs. The depth that is kept while lines are emitted rises and falls
with the lines, and its peak is what the directive of a method is raised to. For the code of a tree
the peak is a function of the tree alone: a left operand waits on the stack while the right one is
computed, and a print has its stream, its format and its array there while it computes an argument.
So the limit in the directive of the main method is exact.
-/
namespace StackLowering

namespace Expr

/-- The entries of the operand stack that computing a value takes. -/
def need : Expr → Nat
  | literal _ _ _ _ | var _ => 1
  | binary _ left right _ _ => max left.need (1 + right.need)
  | negate operand _ _ => operand.need

theorem need_pos (e : Expr) : 0 < e.need := by
  induction e with
  | literal kind text tag span => exact Nat.one_pos
  | var v => exact Nat.one_pos
  | binary op left right tag span ihl ihr =>
    rw [need]
    omega
  | negate operand tag span ih => exact ih

end Expr

def largestNeed (args : List Expr) : Nat := (args.map Expr.need).foldr max 0

mutual

/-- The entries of the operand stack that a statement takes. -/
def Stmt.need : Stmt → Nat
  | .assign _ value _ => value.need
  | .block body _ => needAll body
  | .ifThen cond body _ => max cond.need (needAll body)
  | .ifElse cond body alternative _ => max cond.need (max (needAll body) (needAll alternative))
  | .loop body cond _ => max (needAll body) cond.need
  | .print _ args _ => if args.isEmpty then 3 else 5 + largestNeed args

/-- The entries of the operand stack that statements take, one after another. -/
def needAll : List Stmt → Nat
  | [] => 0
  | s :: ss => max s.need (needAll ss)

end

/-! The greatest depth over lines. -/

/-- The greatest depth when lines are passed from a depth on. -/
def crest (d : Int) : List Line → Int
  | [] => d
  | line :: lines => max d (crest (d + line.net) lines)

theorem le_crest (d : Int) (ls : List Line) : d ≤ crest d ls := by
  cases ls with
  | nil => exact Int.le_refl d
  | cons line lines => exact Int.le_max_left _ _

theorem crest_append (d : Int) (ls ms : List Line) :
    crest d (ls ++ ms) = max (crest d ls) (crest (d + (ls.map Line.net).sum) ms) := by
  induction ls generalizing d with
  | nil =>
    have hle := le_crest d ms
    simp only [List.nil_append, List.map_nil, List.sum_nil, Int.add_zero, crest]
    omega
  | cons line ls ih =>
    simp only [List.cons_append, List.map_cons, List.sum_cons, crest, ih, Int.add_assoc]
    omega

namespace Assembler

/-- A counted emission raises the peak to the depth that it leads to. -/
theorem peak_emit {e : Emission} (h : e.isCounted = true) {a : Assembler} (ha : a.depth ≤ a.peak) :
    ((a.emit e).peak : Int) = max (a.peak : Int) (crest a.depth (a.written e)) := by
  obtain ⟨-, hd⟩ := emit_counted h a
  have hadjust (line : Line) (effect : Int) (hnet : a.depth + effect = a.depth + (line.net + 0)) :
      ((max a.peak (a.depth + effect).toNat : Nat) : Int) =
        max (a.peak : Int) (crest a.depth [line]) := by
    simp only [crest]
    omega
  cases e with
  | instruction op operand => exact hadjust _ _ hd
  | invoke op method => exact hadjust _ _ hd
  | branch op target => exact hadjust _ _ hd
  | openMethod header => contradiction
  | closeMethod locals stack => contradiction
  | setLine n => exact (Int.max_eq_left ha).symm
  | newLabel => exact (Int.max_eq_left ha).symm
  | _ =>
    change (a.peak : Int) = max (a.peak : Int) (max a.depth (a.depth + 0))
    omega

/-- The peak after counted emissions is the greatest depth over their lines. -/
theorem peak_emitAll {es : List Emission} (h : ∀ e ∈ es, e.isCounted = true) {a : Assembler}
    (ha : a.depth ≤ a.peak) :
    ((a.emitAll es).peak : Int) = max (a.peak : Int) (crest a.depth (a.writtenAll es)) := by
  induction es generalizing a with
  | nil => exact (Int.max_eq_left ha).symm
  | cons e es ih =>
    have he := h e List.mem_cons_self
    obtain ⟨-, hd⟩ := emit_counted he a
    obtain ⟨hle, -⟩ := depth_emit_le_peak he ha
    rw [emitAll_cons, ih (fun f hf => h f (List.mem_cons_of_mem e hf)) hle, peak_emit he ha,
      writtenAll_cons, crest_append, hd, Int.max_assoc]

end Assembler

/-! The greatest depth over the code of a tree is what the tree needs. -/

namespace Listing

/-- Lines that lead from depth `d` to depth `e`, with `n` as the greatest depth in between. -/
structure Climbs (d : Nat) (ls : List Line) (e n : Nat) : Prop where
  net : (e : Int) = d + (ls.map Line.net).sum
  crest : crest d ls = n

namespace Climbs

variable {d e f n m : Nat} {ls ms : List Line}

theorem nil : Climbs d [] d d := ⟨(Int.add_zero _).symm, rfl⟩

theorem append (hl : Climbs d ls e n) (hm : Climbs e ms f m) :
    Climbs d (ls ++ ms) f (max n m) := by
  constructor
  · rw [List.map_append, List.sum_append, hm.net, hl.net, Int.add_assoc]
  · rw [crest_append, ← hl.net, hl.crest, hm.crest]
    omega

theorem of_eq (h : Climbs d ls e n) (hn : n = m) : Climbs d ls e m := hn ▸ h

/-- An operation between what it pops and what it pushes. -/
theorem operation {line : Line} (d pops pushes : Nat) (h : line.arity? = some (pops, pushes)) :
    Climbs (d + pops) [line] (d + pushes) (d + max pops pushes) := by
  have hnet : line.net = pushes - pops := by simp only [Line.net, h]
  constructor
  · rw [List.map_singleton, List.sum_singleton, hnet]
    omega
  · simp only [StackLowering.crest, hnet]
    omega

/-- Lines that leave the stack alone. -/
theorem still (h : ∀ line ∈ ls, line.Still) : Climbs d ls d d := by
  induction ls with
  | nil => exact nil
  | cons line ls ih =>
    have harity : line.arity? = some (0, 0) := by
      cases h line List.mem_cons_self <;> rfl
    have hls := ih fun other hm => h other (List.mem_cons_of_mem line hm)
    exact ((operation d 0 0 harity).append hls).of_eq (Nat.max_self d)

end Climbs

end Listing

open Listing

namespace Expr

theorem code_climbs (scope : Scope) (e : Expr) (d : Nat) :
    Climbs d (e.code scope) (d + 1) (d + e.need) := by
  induction e generalizing d with
  | literal kind text tag span => exact .operation d 0 1 rfl
  | var v => exact .operation d 0 1 rfl
  | binary op left right tag span ihl ihr =>
    have hop : (Line.instruction (op.arithmeticOr left.tag right.tag) none).arity? = some (2, 1) :=
      op.arity?_arithmeticOr _ _
    have hpos := right.need_pos
    apply (((ihl d).append (ihr (d + 1))).append (.operation d 2 1 hop)).of_eq
    rw [need]
    omega
  | negate operand tag span ih =>
    have hop : (Line.instruction operand.tag.negationOr none).arity? = some (1, 1) :=
      operand.tag.arity?_negationOr
    have hpos := operand.need_pos
    apply ((ih d).append (.operation d 1 1 hop)).of_eq
    rw [need]
    omega

/-- A comparison needs what its operands need. -/
theorem branchCode_climbs (scope : Scope) (target : Label) {e : Expr} (h : e.isComparison = true) :
    Climbs 0 (e.branchCode scope target) 0 e.need := by
  cases e with
  | binary op left right tag span =>
    have hpos := right.need_pos
    have hjump : Climbs 2 ((op.comparisonOr left.tag right.tag).lines target) 0 2 := by
      rcases op.comparisonOr_cases left.tag right.tag with ⟨b, hj, hb⟩ | ⟨c, b, hj, hc, hb⟩
      · have hbranch : (Line.branch b target).arity? = some (2, 0) := hb
        rw [hj]
        exact .operation 0 2 0 hbranch
      · have hcompare : (Line.instruction c none).arity? = some (2, 1) := hc
        have hbranch : (Line.branch b target).arity? = some (1, 0) := hb
        rw [hj]
        exact (Climbs.operation 0 2 1 hcompare).append (.operation 0 1 0 hbranch)
    apply (((left.code_climbs scope 0).append (right.code_climbs scope 1)).append hjump).of_eq
    rw [need]
    omega
  | _ => contradiction

end Expr

/-- The array and an index wait on the stack while an argument is computed. -/
theorem argumentsCode_climbs (scope : Scope) (index : Nat) (args : List Expr) (d : Nat) :
    Climbs (d + 1) (argumentsCode scope index args) (d + 1)
      (if args.isEmpty then d + 1 else d + 3 + largestNeed args) := by
  induction args generalizing index with
  | nil => exact .nil
  | cons arg args ih =>
    have hbox : (Line.instruction .invokeStatic (some (Library.boxing arg.tag))).arity? =
        some (1, 1) := Library.arity?_boxing arg.tag
    have hpos := arg.need_pos
    have hlargest : largestNeed (arg :: args) = max arg.need (largestNeed args) := rfl
    have hopen : Climbs (d + 1)
        [.instruction .dup none, .instruction .ldc (some (toString index))] (d + 3) _ :=
      (Climbs.operation d 1 2 rfl).append (.operation (d + 2) 0 1 rfl)
    have hclose : Climbs (d + 4)
        [.instruction .invokeStatic (some (Library.boxing arg.tag)), .instruction .aastore none]
        (d + 1) _ :=
      (Climbs.operation (d + 3) 1 1 hbox).append (.operation (d + 1) 3 0 rfl)
    apply (((hopen.append (arg.code_climbs scope (d + 3))).append hclose).append
      (ih (index + 1))).of_eq
    rw [List.isEmpty_cons, if_neg Bool.false_ne_true, hlargest]
    cases args with
    | nil =>
      change max (max _ _) (d + 1) = d + 3 + max arg.need 0
      omega
    | cons next args =>
      rw [List.isEmpty_cons, if_neg Bool.false_ne_true]
      omega

theorem printCode_climbs (scope : Scope) (text format : String) (args : List Expr) (span : Span) :
    Climbs 0 (printCode scope text args) 0 (Stmt.print format args span).need := by
  have hopen : Climbs 0 [.instruction .getStatic (some Library.systemOut),
      .instruction .ldc (some s!"\"{text}\""), .instruction .ldc (some (toString args.length)),
      .instruction .anewarray (some Library.objectClass)] 3 _ :=
    (Climbs.operation 0 0 1 rfl).append ((Climbs.operation 1 0 1 rfl).append
      ((Climbs.operation 2 0 1 rfl).append (.operation 2 1 1 rfl)))
  have hprintf : (Line.instruction .invokeVirtual (some Library.printf)).arity? = some (3, 1) :=
    Library.arity?_printf
  have hclose : Climbs 3 [.instruction .invokeVirtual (some Library.printf),
      .instruction .pop none] 0 _ :=
    (Climbs.operation 0 3 1 hprintf).append (.operation 0 1 0 rfl)
  apply ((hopen.append (argumentsCode_climbs scope 0 args 2)).append hclose).of_eq
  rw [Stmt.need]
  cases args with
  | nil => rfl
  | cons arg args =>
    rw [List.isEmpty_cons, if_neg Bool.false_ne_true]
    omega

theorem climbs_label (l : Label) : Climbs 0 [.label l] 0 0 :=
  .still fun _ hm => List.mem_singleton.mp hm ▸ .label l

theorem climbs_goto (l : Label) : Climbs 0 [.branch .goto l] 0 0 :=
  .still fun _ hm => List.mem_singleton.mp hm ▸ .goto l

mutual

theorem Stmt.code_climbs (scope : Scope) (cursor : Cursor) {s : Stmt}
    (hd : ∀ site ∈ s.sites, site.defect? = none) : Climbs 0 (s.code scope cursor) 0 s.need := by
  cases s with
  | assign target value span =>
    have hpos := value.need_pos
    apply ((value.code_climbs scope 0).append (.operation 0 1 0 rfl)).of_eq
    rw [Stmt.need]
    omega
  | block body span => exact codeAll_climbs scope cursor hd
  | ifThen cond body span =>
    obtain ⟨hc, hb⟩ := List.forall_mem_append.mp hd
    have hcond := Site.isComparison_of_condition (hc _ List.mem_cons_self)
    have hmid := (climbs_goto ⟨cursor.label + 2⟩).append (climbs_label ⟨cursor.label + 1⟩)
    apply (((((climbs_label _).append (cond.branchCode_climbs scope _ hcond)).append hmid).append
      (codeAll_climbs scope _ hb)).append (climbs_label _)).of_eq
    rw [Stmt.need]
    omega
  | ifElse cond body alternative span =>
    obtain ⟨hc, hab⟩ := List.forall_mem_append.mp hd
    obtain ⟨ha, hb⟩ := List.forall_mem_append.mp hab
    have hcond := Site.isComparison_of_condition (hc _ List.mem_cons_self)
    have hmid := (climbs_goto ⟨cursor.label + 2⟩).append (climbs_label ⟨cursor.label + 1⟩)
    have hend := (climbs_goto ⟨cursor.label + 2⟩).append (climbs_label ⟨cursor.label + 2⟩)
    apply ((((((climbs_label _).append (cond.branchCode_climbs scope _ hcond)).append
      (codeAll_climbs scope _ ha)).append hmid).append (codeAll_climbs scope _ hb)).append
      hend).of_eq
    rw [Stmt.need]
    omega
  | loop body cond span =>
    obtain ⟨hb, hc⟩ := List.forall_mem_append.mp hd
    have hcond := Site.isComparison_of_condition (hc _ List.mem_cons_self)
    apply (((climbs_label _).append (codeAll_climbs scope _ hb)).append
      (cond.branchCode_climbs scope _ hcond)).of_eq
    rw [Stmt.need]
    omega
  | print format args span =>
    obtain ⟨text, ht⟩ := Site.exists_formatText?_of_format (hd _ List.mem_cons_self)
    simp only [Stmt.code, ht]
    exact printCode_climbs scope text format args span

/-- The code of statements without defects takes what the statements need. -/
theorem codeAll_climbs (scope : Scope) (cursor : Cursor) {ss : List Stmt}
    (hd : ∀ site ∈ sitesAll ss, site.defect? = none) :
    Climbs 0 (codeAll scope cursor ss) 0 (needAll ss) := by
  cases ss with
  | nil => exact .nil
  | cons s ss =>
    obtain ⟨hs, hss⟩ := List.forall_mem_append.mp hd
    have hecho : Climbs 0 (scope.annotationLines cursor s.span) 0 0 :=
      .still fun line hm => (Scope.annotationLines_still hm).1
    apply ((hecho.append (s.code_climbs scope _ hs)).append (codeAll_climbs scope _ hss)).of_eq
    rw [needAll]
    omega

end

namespace Scope

theorem supportCode_climbs (scope : Scope) {s : Library.Support} (hs : s ∈ Library.supports) :
    Climbs 0 (scope.supportCode s) 0 2 := by
  have hinit : (Line.instruction .invokeNonVirtual
      (some (Descriptor.constructor s.className))).arity? = some (1, 0) :=
    Library.arity?_constructor hs
  exact (Climbs.operation 0 0 1 rfl).append ((Climbs.operation 0 1 2 rfl).append
    ((Climbs.operation 1 1 0 hinit).append (.operation 0 1 0 rfl)))

theorem prologueCode_climbs (scope : Scope) : Climbs 0 scope.prologueCode 0 2 := by
  have htimer := scope.supportCode_climbs (s := Library.runTimer) (by decide)
  have hinput := scope.supportCode_climbs (s := Library.textIn) (by decide)
  exact htimer.append (hinput.append .nil)

theorem epilogueCode_climbs (scope : Scope) : Climbs 0 scope.epilogueCode 0 1 := by
  have hreport : (Line.instruction .invokeVirtual (some Library.printElapsedTime)).arity? =
      some (1, 0) := Library.arity?_printElapsedTime
  exact (Climbs.operation 0 0 0 rfl).append ((Climbs.operation 0 0 1 rfl).append
    ((Climbs.operation 0 1 0 hreport).append ((Climbs.operation 0 0 0 rfl).append
      (.operation 0 0 0 rfl))))

end Scope

namespace Program

variable {p : Program} {options : Options} {u : ClassUnit}

theorem mainCode_climbs (h : p.unit options = .ok u) :
    Climbs 0 (p.mainCode options) 0 (max 2 (needAll p.body)) := by
  have hbody := codeAll_climbs (p.scope options) ⟨0, 0⟩ (defect?_eq_none_of_unit h)
  apply (((p.scope options).prologueCode_climbs.append hbody).append
    (p.scope options).epilogueCode_climbs).of_eq
  omega

/-- The limit of the main method's stack is what the options ask for, raised to what the method
needs. -/
theorem stackLimit_eq (h : p.unit options = .ok u) :
    p.stackLimit options = max options.stackLimit.toNat (max 2 (needAll p.body)) := by
  obtain ⟨hr, -⟩ := unit_eq_ok h
  obtain ⟨hb, -⟩ := lower_ok hr
  have hpeak := Assembler.peak_emitAll (a := p.atMain options)
    (fun e => isCounted_of_mem_mainEmissions hb) (by simp)
  rw [writtenAll_mainEmissions hb, depth_atMain, peak_atMain] at hpeak
  have hcrest : crest 0 (p.mainCode options) = _ := (mainCode_climbs h).crest
  rw [stackLimit]
  omega

/-- The limit in the directive of the main method is the least that the options and the tree allow,
and the constructor's is one. -/
theorem stack_limit_exact (h : p.unit options = .ok u) :
    stackLimits (method mainHeader u.listing) =
        [.directive s!".limit stack {max options.stackLimit.toNat (max 2 (needAll p.body))}"] ∧
      stackLimits (method constructorHeader u.listing) = [.directive ".limit stack 1"] := by
  rw [← stackLimit_eq h]
  exact ⟨stackLimits_main h, stackLimits_constructor h⟩

/-- An argument of a print with operands that wait for each other, inside a conditional. -/
def tower : Program where
  name := "Tower"
  decls := [⟨"n", .integer, ⟨1, 5, 1⟩⟩]
  body :=
    [.ifThen (.binary (.relation .gt) (.var ⟨"n", .integer, ⟨3, 6, 1⟩⟩)
        (.literal .int "0" .integer ⟨3, 10, 1⟩) .unknown ⟨3, 6, 5⟩)
      [.print "'%d %d\\n'" [.var ⟨"n", .integer, ⟨4, 21, 1⟩⟩,
        .binary (.arithmetic .add) (.literal .int "1" .integer ⟨4, 24, 1⟩)
          (.binary (.arithmetic .mul) (.literal .int "2" .integer ⟨4, 29, 1⟩)
            (.binary (.arithmetic .sub) (.var ⟨"n", .integer, ⟨4, 34, 1⟩⟩)
              (.literal .int "3" .integer ⟨4, 38, 1⟩) .integer ⟨4, 34, 5⟩) .integer ⟨4, 29, 10⟩)
          .integer ⟨4, 24, 15⟩] ⟨4, 5, 35⟩] ⟨3, 3, 2⟩]

theorem tower_stack_limit_exact :
    ∃ u, tower.unit { superClass := "Base(JJ)", stackLimit := 4 } = .ok u ∧
      stackLimits (method mainHeader u.listing) = [.directive ".limit stack 9"] ∧
      stackLimits (method constructorHeader u.listing) = [.directive ".limit stack 1"] := by
  have hsound : tower.sites.findSome? Site.defect? = none := rfl
  obtain ⟨u, hu⟩ :=
    exists_unit_of_no_defect hsound { superClass := "Base(JJ)", stackLimit := 4 }
  obtain ⟨hmain, hconstructor⟩ := stack_limit_exact hu
  exact ⟨u, hu, hmain.trans (by decide), hconstructor⟩

end Program

end StackLowering
