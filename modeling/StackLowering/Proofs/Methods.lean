import StackLowering.Proofs.Fields
import StackLowering.Proofs.StackSafety

/-!
The methods of a listing. A method is what stands between the directive with its header and the next
directive that ends a method. The listing of a class has two of them, the constructor and the main
method, and each has one directive that limits its operand stack.
-/
namespace StackLowering

namespace Listing

/-- The lines of the first method with a header, without the header and the end. -/
def method (header : String) (ls : Listing) : List Line :=
  (ls.dropWhile (· ≠ .directive s!".method {header}")).tail.takeWhile
    (· ≠ .directive ".end method")

theorem method_eq {header : String} {front lines : List Line}
    (hf : .directive s!".method {header}" ∉ front) (hl : .directive ".end method" ∉ lines)
    (back : List Line) :
    method header (front ++ .directive s!".method {header}" ::
      (lines ++ .directive ".end method" :: back)) = lines := by
  have hfront : ∀ line ∈ front, decide (line ≠ .directive s!".method {header}") = true := by
    intro line hm
    exact decide_eq_true fun he => hf (he ▸ hm)
  have hlines : ∀ line ∈ lines, decide (line ≠ .directive ".end method") = true := by
    intro line hm
    exact decide_eq_true fun he => hl (he ▸ hm)
  rw [method, List.dropWhile_append_of_pos hfront, List.dropWhile_cons_of_neg (by simp),
    List.tail_cons, List.takeWhile_append_of_pos hlines, List.takeWhile_cons_of_neg (by simp),
    List.append_nil]

end Listing

namespace Program

open Listing

/-- The header of the constructor, after `.method`. -/
def constructorHeader : String := "public <init>()V"

variable {p : Program} {options : Options} {u : ClassUnit}

theorem append_ne_end {front rest : String} (hl : 1 < front.toList.length)
    (h : front.toList[1]? ≠ some 'e') : front ++ rest ≠ ".end method" := by
  have hne : front ++ rest ≠ ".end method" ++ "" := append_ne_append 1 hl (by decide) h
  exact hne

/-- The lines of the main method: its code and the limits of its frame. -/
theorem method_main (h : p.unit options = .ok u) :
    method mainHeader u.listing = Line.blank :: p.mainCode options ++
      [Line.blank, .directive s!".limit locals {options.localsLimit}"] ++
      [Line.directive s!".limit stack {p.stackLimit options}"] := by
  have hfront : Line.directive s!".method {mainHeader}" ∉
      Assembler.writtenAll {} (p.preamble options) := fun hm => (mem_preamble_lines hm).2.2 rfl
  have hlines : Line.directive ".end method" ∉ Line.blank :: p.mainCode options ++
      [Line.blank, .directive s!".limit locals {options.localsLimit}"] ++
      [Line.directive s!".limit stack {p.stackLimit options}"] := by
    intro hm
    simp only [List.mem_append, List.mem_cons, List.not_mem_nil, or_false, reduceCtorEq,
      false_or, Line.directive.injEq] at hm
    rcases hm with (hm | hm) | hm
    · obtain ⟨n, hn⟩ := exists_of_directive_mem_mainCode hm
      exact append_ne_end (by decide) (by decide) hn.symm
    · exact append_ne_end (by decide) (by decide) hm.symm
    · exact append_ne_end (by decide) (by decide) hm.symm
  rw [← method_eq hfront hlines [], listing_eq h, opening, closing]
  simp [mainLine]

/-- The main method has one limit of its operand stack. -/
theorem stackLimits_main (h : p.unit options = .ok u) :
    stackLimits (method mainHeader u.listing) =
      [Line.directive s!".limit stack {p.stackLimit options}"] := by
  have hdrop : u.listing.drop (mainEntry u.listing) =
      method mainHeader u.listing ++ [.directive ".end method"] := by
    rw [method_main h, mainEntry_listing h, listing_eq h, List.append_assoc, List.drop_left]
    simp [closing]
  have hlimits := stackLimits_drop_mainEntry h
  have hend : stackLimits [.directive ".end method"] = [] := by decide
  rwa [hdrop, stackLimits_append, hend, List.append_nil] at hlimits

/-- Before the constructor, directives name the class and make its fields. -/
theorem constructorLine_notMem (p : Program) (options : Options) :
    Line.directive s!".method {constructorHeader}" ∉
      p.header options ++ Library.supports.map Library.Support.fieldLine ++
        p.decls.flatMap (·.lines options) ++ [.blank] := by
  have hfield (name descriptor : String) :
      s!".method {constructorHeader}" ≠ fieldDirective name descriptor := by
    rw [fieldDirective_eq]
    exact append_ne_append 1 (by decide) (by decide) (by decide)
  intro hm
  simp only [header, List.mem_append, List.mem_map, List.mem_flatMap, List.mem_cons,
    List.not_mem_nil, or_false, reduceCtorEq, Line.directive.injEq] at hm
  rcases hm with ((hm | hm) | ⟨s, -, hm⟩) | ⟨d, -, hm⟩
  · exact append_ne_append 1 (by decide) (by decide) (by decide) hm
  · exact append_ne_append 1 (by decide) (by decide) (by decide) hm
  · exact hfield _ _ (Line.directive.inj hm).symm
  · rw [Declaration.lines, List.mem_append, List.mem_singleton] at hm
    rcases hm with hm | hm
    · split at hm <;> simp at hm
    · exact hfield _ _ (Line.directive.inj hm)

/-- The lines of the constructor. -/
theorem method_constructor (h : p.unit options = .ok u) :
    method constructorHeader u.listing =
      [Line.blank, .instruction .aload0 none,
        .instruction .invokeNonVirtual (some (Descriptor.constructor options.superClass)),
        .instruction .ret none, .blank, .directive ".limit locals 1"] ++
      [Line.directive s!".limit stack {1}"] := by
  have hlines : Line.directive ".end method" ∉ [Line.blank, .instruction .aload0 none,
      .instruction .invokeNonVirtual (some (Descriptor.constructor options.superClass)),
      .instruction .ret none, .blank, .directive ".limit locals 1"] ++
      [Line.directive s!".limit stack {1}"] := by
    have hlocals : ".end method" ≠ ".limit locals 1" := by decide
    have hstack : ".end method" ≠ s!".limit stack {1}" := by decide
    simp only [List.mem_append, List.mem_cons, List.not_mem_nil, reduceCtorEq,
      Line.directive.injEq, hlocals, hstack, or_self, not_false_eq_true]
  rw [← method_eq (p.constructorLine_notMem options) hlines (.blank :: mainLine :: .blank ::
    p.mainCode options ++ closing options (p.stackLimit options)), listing_eq h, opening_eq,
    constructorLines]
  simp only [List.append_assoc, List.cons_append, List.nil_append]
  rfl

theorem stackLimits_constructor (h : p.unit options = .ok u) :
    stackLimits (method constructorHeader u.listing) = [.directive ".limit stack 1"] := by
  rw [method_constructor h]
  apply stackLimits_append_singleton
  rfl

end Program

end StackLowering
