import StackLowering.Proofs.LabelCheck
import StackLowering.Proofs.Labels

/-!
Label discipline. Every statement of a tree is lowered at a cursor of its own, and its code stands
in one piece in the listing. The labels of a conditional or a loop are those from its cursor on, so
branches neither leave the piece nor enter it from outside. Inside it, a conditional jumps forward
only, and a loop is jumped to once, by its own condition.
-/
namespace StackLowering

open Listing

mutual

/-- A statement and those inside it, in the order in which they are lowered, each with the cursor
that it is lowered at. -/
def Stmt.visits (cursor : Cursor) : Stmt → List (Cursor × Stmt)
  | .assign target value span => [(cursor, .assign target value span)]
  | .block body span => (cursor, .block body span) :: visitsAll cursor body
  | .ifThen cond body span =>
    (cursor, .ifThen cond body span) ::
      visitsAll (cursor.skip 3) body
  | .ifElse cond body alternative span =>
    (cursor, .ifElse cond body alternative span) ::
      (visitsAll (cursor.skip 3) alternative ++
        visitsAll (afterAll (cursor.skip 3) alternative) body)
  | .loop body cond span =>
    (cursor, .loop body cond span) :: visitsAll (cursor.skip 1) body
  | .print format args span => [(cursor, .print format args span)]

/-- All statements inside of statements, each with the cursor that it is lowered at. -/
def visitsAll (cursor : Cursor) : List Stmt → List (Cursor × Stmt)
  | [] => []
  | s :: ss =>
    s.visits (cursor.moveTo s.span) ++ visitsAll (s.after (cursor.moveTo s.span)) ss

end

namespace Stmt

def isIf : Stmt → Bool
  | ifThen _ _ _ | ifElse _ _ _ _ => true
  | _ => false

def isLoop : Stmt → Bool
  | loop _ _ _ => true
  | _ => false

end Stmt

/-- The number of conditionals among visited statements. -/
def ifCount (vs : List (Cursor × Stmt)) : Nat := vs.countP fun v => v.2.isIf

/-- The number of loops among visited statements. -/
def loopCount (vs : List (Cursor × Stmt)) : Nat := vs.countP fun v => v.2.isLoop

@[simp] theorem ifCount_cons (v : Cursor × Stmt) (vs : List (Cursor × Stmt)) :
    ifCount (v :: vs) = ifCount vs + v.2.isIf.toNat := by
  cases h : v.2.isIf <;> simp [ifCount, h]

@[simp] theorem loopCount_cons (v : Cursor × Stmt) (vs : List (Cursor × Stmt)) :
    loopCount (v :: vs) = loopCount vs + v.2.isLoop.toNat := by
  cases h : v.2.isLoop <;> simp [loopCount, h]

@[simp] theorem ifCount_append (vs ws : List (Cursor × Stmt)) :
    ifCount (vs ++ ws) = ifCount vs + ifCount ws := List.countP_append

@[simp] theorem loopCount_append (vs ws : List (Cursor × Stmt)) :
    loopCount (vs ++ ws) = loopCount vs + loopCount ws := List.countP_append

mutual

/-- A conditional takes three labels and a loop takes one. -/
theorem Stmt.label_after (cursor : Cursor) (s : Stmt) :
    (s.after cursor).label =
      cursor.label + 3 * ifCount (s.visits cursor) + loopCount (s.visits cursor) := by
  cases s with
  | assign target value span => rfl
  | block body span =>
    simpa [Stmt.after, Stmt.visits, Stmt.isIf, Stmt.isLoop] using label_afterAll cursor body
  | ifThen cond body span =>
    have hb := label_afterAll (cursor.skip 3) body
    rw [Cursor.label_skip] at hb
    simp only [Stmt.after, Stmt.visits, ifCount_cons, loopCount_cons, Stmt.isIf, Stmt.isLoop,
      Bool.toNat_true, Bool.toNat_false]
    omega
  | ifElse cond body alternative span =>
    have ha := label_afterAll (cursor.skip 3) alternative
    have hb := label_afterAll (afterAll (cursor.skip 3) alternative) body
    rw [Cursor.label_skip] at ha
    simp only [Stmt.after, Stmt.visits, ifCount_cons, loopCount_cons, ifCount_append,
      loopCount_append, Stmt.isIf, Stmt.isLoop, Bool.toNat_true, Bool.toNat_false]
    omega
  | loop body cond span =>
    have hb := label_afterAll (cursor.skip 1) body
    rw [Cursor.label_skip] at hb
    simp only [Stmt.after, Stmt.visits, ifCount_cons, loopCount_cons, Stmt.isIf, Stmt.isLoop,
      Bool.toNat_true, Bool.toNat_false]
    omega
  | print format args span => rfl

theorem label_afterAll (cursor : Cursor) (ss : List Stmt) :
    (afterAll cursor ss).label =
      cursor.label + 3 * ifCount (visitsAll cursor ss) + loopCount (visitsAll cursor ss) := by
  cases ss with
  | nil => rfl
  | cons s ss =>
    have hs := s.label_after (cursor.moveTo s.span)
    have hss := label_afterAll (s.after (cursor.moveTo s.span)) ss
    rw [Cursor.label_moveTo] at hs
    simp only [afterAll, visitsAll, ifCount_append, loopCount_append]
    omega

end

mutual

theorem Stmt.sites_subset_of_mem_visits {cursor : Cursor} {s : Stmt} {v : Cursor × Stmt}
    (hv : v ∈ s.visits cursor) : v.2.sites ⊆ s.sites := by
  cases s with
  | assign target value span =>
    cases List.mem_singleton.mp hv
    exact List.Subset.refl _
  | block body span =>
    rcases List.mem_cons.mp hv with rfl | hv
    · exact List.Subset.refl _
    · exact sites_subset_of_mem_visitsAll hv
  | ifThen cond body span =>
    rcases List.mem_cons.mp hv with rfl | hv
    · exact List.Subset.refl _
    · exact List.subset_append_of_subset_right _ (sites_subset_of_mem_visitsAll hv)
  | ifElse cond body alternative span =>
    rcases List.mem_cons.mp hv with rfl | hv
    · exact List.Subset.refl _
    · refine List.subset_append_of_subset_right _ ?_
      rcases List.mem_append.mp hv with hv | hv
      · exact List.subset_append_of_subset_left _ (sites_subset_of_mem_visitsAll hv)
      · exact List.subset_append_of_subset_right _ (sites_subset_of_mem_visitsAll hv)
  | loop body cond span =>
    rcases List.mem_cons.mp hv with rfl | hv
    · exact List.Subset.refl _
    · exact List.subset_append_of_subset_left _ (sites_subset_of_mem_visitsAll hv)
  | print format args span =>
    cases List.mem_singleton.mp hv
    exact List.Subset.refl _

theorem sites_subset_of_mem_visitsAll {cursor : Cursor} {ss : List Stmt} {v : Cursor × Stmt}
    (hv : v ∈ visitsAll cursor ss) : v.2.sites ⊆ sitesAll ss := by
  cases ss with
  | nil => exact absurd hv List.not_mem_nil
  | cons s ss =>
    rcases List.mem_append.mp hv with hv | hv
    · exact List.subset_append_of_subset_left _ (s.sites_subset_of_mem_visits hv)
    · exact List.subset_append_of_subset_right _ (sites_subset_of_mem_visitsAll hv)

end

/-- Where lowering comes to its end, it does so for every statement that it visits. -/
theorem result_of_mem_visitsAll {scope : Scope} {cursor next : Cursor} {ss : List Stmt}
    (h : (lowerAll scope cursor ss).result = .ok next) {v : Cursor × Stmt}
    (hv : v ∈ visitsAll cursor ss) :
    (v.2.lowerBare scope v.1).result = .ok (v.2.after v.1) := by
  obtain ⟨hd, -⟩ := result_lowerAll_iff.mp h
  exact Stmt.result_lowerBare_iff.mpr
    ⟨fun site hsite => hd site (sites_subset_of_mem_visitsAll hv hsite), rfl⟩

/-- Lines in one piece inside others, such that no branch outside of the piece goes to a label with
a number from `lo` up to `hi`. -/
def Listing.Encloses (outer inner : Listing) (lo hi : Nat) : Prop :=
  ∃ before after, outer = before ++ inner ++ after ∧
    ∀ l ∈ referencedLabels before ++ referencedLabels after, l.id < lo ∨ hi ≤ l.id

namespace Listing.Encloses

theorem refl (ls : Listing) (lo hi : Nat) : Encloses ls ls lo hi :=
  ⟨[], [], by simp, by simp⟩

theorem extend {outer inner : Listing} {lo hi : Nat} (h : Encloses outer inner lo hi)
    (front back : Listing)
    (hout : ∀ l ∈ referencedLabels front ++ referencedLabels back, l.id < lo ∨ hi ≤ l.id) :
    Encloses (front ++ outer ++ back) inner lo hi := by
  obtain ⟨before, after, rfl, hin⟩ := h
  refine ⟨front ++ before, after ++ back, by simp, fun l hl => ?_⟩
  simp only [referencedLabels_append, List.mem_append] at hin hout hl
  rcases hl with (hl | hl) | (hl | hl)
  · exact hout l (.inl hl)
  · exact hin l (.inl hl)
  · exact hin l (.inr hl)
  · exact hout l (.inr hl)

end Listing.Encloses

mutual

/-- The code of every visited statement stands in one piece in the code of the whole, and the labels
of its run are left alone outside of the piece. -/
theorem Stmt.encloses_of_mem_visits (scope : Scope) {cursor : Cursor} {s : Stmt}
    {v : Cursor × Stmt} (hv : v ∈ s.visits cursor) :
    cursor.label ≤ v.1.label ∧ (v.2.after v.1).label ≤ (s.after cursor).label ∧
      Encloses (s.code scope cursor) (v.2.code scope v.1) v.1.label (v.2.after v.1).label := by
  have hself : cursor.label ≤ cursor.label ∧ (s.after cursor).label ≤ (s.after cursor).label ∧
      Encloses (s.code scope cursor) (s.code scope cursor) cursor.label (s.after cursor).label :=
    ⟨Nat.le_refl _, Nat.le_refl _, .refl _ _ _⟩
  cases s with
  | assign target value span =>
    cases List.mem_singleton.mp hv
    exact hself
  | block body span =>
    rcases List.mem_cons.mp hv with rfl | hv
    · exact hself
    · exact encloses_of_mem_visitsAll scope hv
  | ifThen cond body span =>
    rcases List.mem_cons.mp hv with rfl | hv
    · exact hself
    · obtain ⟨hlo, hhi, hin⟩ := encloses_of_mem_visitsAll scope hv
      rw [Cursor.label_skip] at hlo
      refine ⟨by omega, hhi, ?_⟩
      rw [Stmt.code]
      refine hin.extend _ _ fun l hl => ?_
      simp only [referencedLabels_append, referencedLabels_cons, Line.target?_label,
        Line.target?_branch, Option.toList_none, Option.toList_some, referencedLabels_nil,
        List.append_nil, List.nil_append, List.mem_append, List.mem_singleton] at hl
      rcases hl with hl | rfl
      · cases Expr.eq_of_mem_referencedLabels_branchCode hl
        exact .inl (by change cursor.label + 1 < _; omega)
      · exact .inl (by change cursor.label + 2 < _; omega)
  | ifElse cond body alternative span =>
    rcases List.mem_cons.mp hv with rfl | hv
    · exact hself
    · have hla := label_le_afterAll (cursor.skip 3) alternative
      have hlb := label_le_afterAll (afterAll (cursor.skip 3) alternative) body
      rw [Cursor.label_skip] at hla
      rcases List.mem_append.mp hv with hv | hv
      · obtain ⟨hlo, hhi, hin⟩ := encloses_of_mem_visitsAll scope hv
        rw [Cursor.label_skip] at hlo
        refine ⟨by omega, Nat.le_trans hhi hlb, ?_⟩
        have hcode : (Stmt.ifElse cond body alternative span).code scope cursor =
            ([.label ⟨cursor.label⟩] ++ cond.branchCode scope ⟨cursor.label + 1⟩) ++
              codeAll scope (cursor.skip 3) alternative ++
              ([.branch .goto ⟨cursor.label + 2⟩, .label ⟨cursor.label + 1⟩] ++
                codeAll scope (afterAll (cursor.skip 3) alternative) body ++
                [.branch .goto ⟨cursor.label + 2⟩, .label ⟨cursor.label + 2⟩]) := by
          simp [Stmt.code]
        rw [hcode]
        refine hin.extend _ _ fun l hl => ?_
        simp only [referencedLabels_append, referencedLabels_cons, Line.target?_label,
          Line.target?_branch, Option.toList_none, Option.toList_some, referencedLabels_nil,
          List.append_nil, List.nil_append, List.mem_append, List.mem_singleton] at hl
        rcases hl with hl | (rfl | hl) | rfl
        · cases Expr.eq_of_mem_referencedLabels_branchCode hl
          exact .inl (by change cursor.label + 1 < _; omega)
        · exact .inl (by change cursor.label + 2 < _; omega)
        · exact .inr (Nat.le_trans hhi (mem_referencedLabels_codeAll hl).1)
        · exact .inl (by change cursor.label + 2 < _; omega)
      · obtain ⟨hlo, hhi, hin⟩ := encloses_of_mem_visitsAll scope hv
        refine ⟨by omega, hhi, ?_⟩
        rw [Stmt.code]
        refine hin.extend _ _ fun l hl => ?_
        simp only [referencedLabels_append, referencedLabels_cons, Line.target?_label,
          Line.target?_branch, Option.toList_none, Option.toList_some, referencedLabels_nil,
          List.append_nil, List.nil_append, List.mem_append, List.mem_singleton] at hl
        rcases hl with ((hl | hl) | rfl) | rfl
        · cases Expr.eq_of_mem_referencedLabels_branchCode hl
          exact .inl (by change cursor.label + 1 < _; omega)
        · exact .inl (Nat.lt_of_lt_of_le (mem_referencedLabels_codeAll hl).2 hlo)
        · exact .inl (by change cursor.label + 2 < _; omega)
        · exact .inl (by change cursor.label + 2 < _; omega)
  | loop body cond span =>
    rcases List.mem_cons.mp hv with rfl | hv
    · exact hself
    · obtain ⟨hlo, hhi, hin⟩ := encloses_of_mem_visitsAll scope hv
      rw [Cursor.label_skip] at hlo
      refine ⟨by omega, hhi, ?_⟩
      rw [Stmt.code]
      refine hin.extend _ _ fun l hl => ?_
      simp only [referencedLabels_cons, Line.target?_label, Option.toList_none,
        referencedLabels_nil, List.append_nil, List.nil_append] at hl
      cases Expr.eq_of_mem_referencedLabels_branchCode hl
      exact .inl hlo
  | print format args span =>
    cases List.mem_singleton.mp hv
    exact hself

theorem encloses_of_mem_visitsAll (scope : Scope) {cursor : Cursor} {ss : List Stmt}
    {v : Cursor × Stmt} (hv : v ∈ visitsAll cursor ss) :
    cursor.label ≤ v.1.label ∧ (v.2.after v.1).label ≤ (afterAll cursor ss).label ∧
      Encloses (codeAll scope cursor ss) (v.2.code scope v.1) v.1.label
        (v.2.after v.1).label := by
  cases ss with
  | nil => exact absurd hv List.not_mem_nil
  | cons s ss =>
    have hle := s.label_le_after (cursor.moveTo s.span)
    have hles := label_le_afterAll (s.after (cursor.moveTo s.span)) ss
    have hfree := (scope.labelFree_annotationLines cursor s.span).referenced
    rw [Cursor.label_moveTo] at hle
    rcases List.mem_append.mp hv with hv | hv
    · obtain ⟨hlo, hhi, hin⟩ := s.encloses_of_mem_visits scope hv
      rw [Cursor.label_moveTo] at hlo
      refine ⟨hlo, Nat.le_trans hhi hles, hin.extend _ _ fun l hl => .inr ?_⟩
      rw [hfree, List.nil_append] at hl
      exact Nat.le_trans hhi (mem_referencedLabels_codeAll hl).1
    · obtain ⟨hlo, hhi, hin⟩ := encloses_of_mem_visitsAll scope hv
      refine ⟨Nat.le_trans hle hlo, hhi, ?_⟩
      rw [codeAll, ← List.append_nil (_ ++ _)]
      refine hin.extend _ _ fun l hl => .inl ?_
      rw [referencedLabels_append, hfree, referencedLabels_nil, List.append_nil,
        List.nil_append] at hl
      exact Nat.lt_of_lt_of_le (s.mem_referencedLabels_code hl).2 hlo

end

/-- The conditionals and loops among visited statements. -/
def controls (vs : List (Cursor × Stmt)) : List (Cursor × Stmt) :=
  vs.filter fun v => v.2.isIf || v.2.isLoop

@[simp] theorem controls_append (vs ws : List (Cursor × Stmt)) :
    controls (vs ++ ws) = controls vs ++ controls ws := List.filter_append _ _

theorem mem_controls {v : Cursor × Stmt} {vs : List (Cursor × Stmt)} :
    v ∈ controls vs ↔ v ∈ vs ∧ (v.2.isIf || v.2.isLoop) = true := List.mem_filter

/-- A conditional or a loop has at least the label at its cursor. -/
theorem Stmt.label_lt_after {cursor : Cursor} {s : Stmt} (h : (s.isIf || s.isLoop) = true) :
    cursor.label < (s.after cursor).label := by
  cases s with
  | ifThen cond body span =>
    have hb := label_le_afterAll (cursor.skip 3) body
    rw [Cursor.label_skip] at hb
    rw [Stmt.after]
    omega
  | ifElse cond body alternative span =>
    have ha := label_le_afterAll (cursor.skip 3) alternative
    have hb := label_le_afterAll (afterAll (cursor.skip 3) alternative) body
    rw [Cursor.label_skip] at ha
    rw [Stmt.after]
    omega
  | loop body cond span => exact label_le_afterAll (cursor.skip 1) body
  | _ => contradiction

theorem Stmt.lt_of_mem_controls {cursor : Cursor} {s : Stmt} {v : Cursor × Stmt}
    (h : v ∈ controls (s.visits cursor)) : v.1.label < (s.after cursor).label := by
  obtain ⟨hv, hc⟩ := mem_controls.mp h
  obtain ⟨-, hhi, -⟩ := s.encloses_of_mem_visits ⟨"", none, {}, []⟩ hv
  exact Nat.lt_of_lt_of_le (Stmt.label_lt_after hc) hhi

theorem lt_of_mem_controls {cursor : Cursor} {ss : List Stmt} {v : Cursor × Stmt}
    (h : v ∈ controls (visitsAll cursor ss)) :
    cursor.label ≤ v.1.label ∧ v.1.label < (afterAll cursor ss).label := by
  obtain ⟨hv, hc⟩ := mem_controls.mp h
  obtain ⟨hlo, hhi, -⟩ := encloses_of_mem_visitsAll ⟨"", none, {}, []⟩ hv
  exact ⟨hlo, Nat.lt_of_lt_of_le (Stmt.label_lt_after hc) hhi⟩

mutual

/-- Conditionals and loops are lowered at cursors with growing labels. -/
theorem Stmt.pairwise_controls (cursor : Cursor) (s : Stmt) :
    (controls (s.visits cursor)).Pairwise fun v w => v.1.label < w.1.label := by
  cases s with
  | assign target value span => exact .nil
  | block body span => exact pairwise_controlsAll cursor body
  | ifThen cond body span =>
    refine .cons (fun v hv => ?_) (pairwise_controlsAll (cursor.skip 3) body)
    have hlo := (lt_of_mem_controls hv).1
    rw [Cursor.label_skip] at hlo
    change cursor.label < v.1.label
    omega
  | ifElse cond body alternative span =>
    have hla := label_le_afterAll (cursor.skip 3) alternative
    rw [Cursor.label_skip] at hla
    refine .cons (fun v hv => ?_) ?_
    · change cursor.label < v.1.label
      rw [List.filter_append, List.mem_append] at hv
      rcases hv with hv | hv
      · have hlo := (lt_of_mem_controls hv).1
        rw [Cursor.label_skip] at hlo
        omega
      · have hlo := (lt_of_mem_controls hv).1
        omega
    · change (controls (_ ++ _)).Pairwise _
      rw [controls_append, List.pairwise_append]
      refine ⟨pairwise_controlsAll _ alternative, pairwise_controlsAll _ body, fun v hv w hw => ?_⟩
      exact Nat.lt_of_lt_of_le (lt_of_mem_controls hv).2 (lt_of_mem_controls hw).1
  | loop body cond span =>
    refine .cons (fun v hv => ?_) (pairwise_controlsAll (cursor.skip 1) body)
    exact (lt_of_mem_controls hv).1
  | print format args span => exact .nil

theorem pairwise_controlsAll (cursor : Cursor) (ss : List Stmt) :
    (controls (visitsAll cursor ss)).Pairwise fun v w => v.1.label < w.1.label := by
  cases ss with
  | nil => exact .nil
  | cons s ss =>
    rw [visitsAll, controls_append, List.pairwise_append]
    refine ⟨s.pairwise_controls _, pairwise_controlsAll _ ss, fun v hv w hw => ?_⟩
    exact Nat.lt_of_lt_of_le (Stmt.lt_of_mem_controls hv) (lt_of_mem_controls hw).1

end

/-- The piece of a conditional in a listing. -/
structure IfSegment (scope : Scope) (cursor : Cursor) (cond : Expr) (ls code : Listing) : Prop where
  /-- The condition follows the entry label and jumps to the true label. -/
  condition : ∃ test rest, code = .label ⟨cursor.label⟩ :: test ++ rest ∧
    ∀ n, (cond.lowerCondition scope ⟨cursor.label + 1⟩).Writes n test n
  entry : ⟨cursor.label⟩ ∉ referencedLabels ls
  onTrue : ∃ front back, ls = front ++ .label ⟨cursor.label + 1⟩ :: back ∧
    ⟨cursor.label + 1⟩ ∉ referencedLabels back
  join : ∃ front back, ls = front ++ .label ⟨cursor.label + 2⟩ :: back ∧
    ⟨cursor.label + 2⟩ ∉ referencedLabels back
  last : (definedLabels code).getLast? = some ⟨cursor.label + 2⟩

/-- The piece of a loop in a listing. -/
structure LoopSegment (scope : Scope) (cursor : Cursor) (cond : Expr) (ls code : Listing) :
    Prop where
  top : code.head? = some (.label ⟨cursor.label⟩)
  once : (referencedLabels ls).count ⟨cursor.label⟩ = 1
  /-- The condition stands at the end, and its last line is the branch to the top. -/
  condition : ∃ body test op, code = body ++ (test ++ [.branch op ⟨cursor.label⟩]) ∧
    ∀ n, (cond.lowerCondition scope ⟨cursor.label⟩).Writes n (test ++ [.branch op ⟨cursor.label⟩]) n

/-- What holds of the code of a statement in its listing. -/
def Stmt.Segment (scope : Scope) (cursor : Cursor) (ls code : Listing) : Stmt → Prop
  | .ifThen cond _ _ | .ifElse cond _ _ _ => IfSegment scope cursor cond ls code
  | .loop _ cond _ => LoopSegment scope cursor cond ls code
  | _ => True

/-- A label before the end of a piece is jumped to from before it only, if the rest of the piece and
what follows the piece leave it alone. -/
theorem forward_of_split {ls before code after front back : Listing} {l : Label}
    (hls : ls = before ++ code ++ after) (hcode : code = front ++ .label l :: back)
    (hback : l ∉ referencedLabels back) (hafter : l ∉ referencedLabels after) :
    ∃ f b, ls = f ++ .label l :: b ∧ l ∉ referencedLabels b := by
  refine ⟨before ++ front, back ++ after, by rw [hls, hcode]; simp, ?_⟩
  rw [referencedLabels_append, List.mem_append]
  exact not_or.mpr ⟨hback, hafter⟩

/-- Both forms of a conditional: an alternative that may be empty, and a jump over nothing that may
be left out. -/
theorem ifSegment_of_code {scope : Scope} {cursor : Cursor} {cond : Expr}
    {ls code before after alternative body jump : Listing}
    (hd : ∀ site ∈ cond.conditionSites, site.defect? = none)
    (hcode : code = [.label ⟨cursor.label⟩] ++ cond.branchCode scope ⟨cursor.label + 1⟩ ++
      alternative ++ [.branch .goto ⟨cursor.label + 2⟩, .label ⟨cursor.label + 1⟩] ++ body ++
      jump ++ [.label ⟨cursor.label + 2⟩])
    (hls : ls = before ++ code ++ after)
    (hjump : jump = [] ∨ jump = [.branch .goto ⟨cursor.label + 2⟩])
    (hinner : ∀ l ∈ referencedLabels alternative ++ referencedLabels body, cursor.label + 3 ≤ l.id)
    (houter : ∀ l ∈ referencedLabels before ++ referencedLabels after,
      l.id < cursor.label ∨ cursor.label + 3 ≤ l.id) :
    IfSegment scope cursor cond ls code := by
  have hbodies {k : Nat} (hk : k < 3) :
      (⟨cursor.label + k⟩ : Label) ∉ referencedLabels alternative ∧
      (⟨cursor.label + k⟩ : Label) ∉ referencedLabels body := by
    refine ⟨fun h => ?_, fun h => ?_⟩
    · have hlo : cursor.label + 3 ≤ cursor.label + k := hinner _ (List.mem_append_left _ h)
      omega
    · have hlo : cursor.label + 3 ≤ cursor.label + k := hinner _ (List.mem_append_right _ h)
      omega
  have houtside {k : Nat} (hk : k < 3) : (⟨cursor.label + k⟩ : Label) ∉ referencedLabels before ∧
      (⟨cursor.label + k⟩ : Label) ∉ referencedLabels after := by
    refine ⟨fun h => ?_, fun h => ?_⟩
    · have hlo : cursor.label + k < cursor.label ∨ cursor.label + 3 ≤ cursor.label + k :=
        houter _ (List.mem_append_left _ h)
      omega
    · have hlo : cursor.label + k < cursor.label ∨ cursor.label + 3 ≤ cursor.label + k :=
        houter _ (List.mem_append_right _ h)
      omega
  have hjumps : ∀ l ∈ referencedLabels jump, l = ⟨cursor.label + 2⟩ := by
    rcases hjump with rfl | rfl <;> simp
  have hne {j k : Nat} (h : j ≠ k) : (⟨cursor.label + j⟩ : Label) ≠ ⟨cursor.label + k⟩ := by
    intro he
    have hid := congrArg Label.id he
    exact h (Nat.add_left_cancel hid)
  refine ⟨⟨_, _, by rw [hcode, List.append_assoc, List.append_assoc, List.append_assoc,
    List.append_assoc, List.append_assoc]; rfl,
    fun n => cond.lowerCondition_writes scope _ n (Expr.result_lowerCondition_iff.mpr hd)⟩,
    ?_, ?_, ?_, ?_⟩
  · rw [hls, hcode]
    simp only [referencedLabels_append, referencedLabels_cons, Line.target?_label,
      Line.target?_branch, Option.toList_none, Option.toList_some, referencedLabels_nil,
      List.append_nil, List.nil_append, List.mem_append, List.mem_singleton]
    rintro ((h | (((((h | h) | h) | h) | h))) | h)
    · exact (houtside (k := 0) (by decide)).1 h
    · exact hne (j := 0) (by decide) (Expr.eq_of_mem_referencedLabels_branchCode h)
    · exact (hbodies (k := 0) (by decide)).1 h
    · exact hne (j := 0) (by decide) h
    · exact (hbodies (k := 0) (by decide)).2 h
    · exact hne (j := 0) (by decide) (hjumps _ h)
    · exact (houtside (k := 0) (by decide)).2 h
  · have hsplit : code = ([.label ⟨cursor.label⟩] ++ cond.branchCode scope ⟨cursor.label + 1⟩ ++
        alternative ++ [.branch .goto ⟨cursor.label + 2⟩]) ++ .label ⟨cursor.label + 1⟩ ::
        (body ++ jump ++ [.label ⟨cursor.label + 2⟩]) := by
      rw [hcode]
      simp
    refine forward_of_split hls hsplit ?_ (houtside (by decide)).2
    simp only [referencedLabels_append, referencedLabels_cons, Line.target?_label,
      Option.toList_none, referencedLabels_nil, List.append_nil, List.mem_append]
    rintro (h | h)
    · exact (hbodies (by decide)).2 h
    · exact hne (by decide) (hjumps _ h)
  · exact forward_of_split hls (by rw [hcode]) List.not_mem_nil (houtside (by decide)).2
  · rw [hcode, definedLabels_append]
    exact List.getLast?_concat

theorem loopSegment_of_code {scope : Scope} {cursor : Cursor} {cond : Expr}
    {ls code before after body : Listing} (hd : ∀ site ∈ cond.conditionSites, site.defect? = none)
    (hcode : code = [.label ⟨cursor.label⟩] ++ body ++ cond.branchCode scope ⟨cursor.label⟩)
    (hls : ls = before ++ code ++ after)
    (hinner : ∀ l ∈ referencedLabels body, cursor.label + 1 ≤ l.id)
    (houter : ∀ l ∈ referencedLabels before ++ referencedLabels after,
      l.id < cursor.label ∨ cursor.label + 1 ≤ l.id) :
    LoopSegment scope cursor cond ls code := by
  have hwrites (n : UInt32) := cond.lowerCondition_writes scope ⟨cursor.label⟩ n
    (Expr.result_lowerCondition_iff.mpr hd)
  obtain ⟨rel, left, right, tag, span, rfl⟩ :=
    Site.exists_relation_of_condition (hd _ List.mem_cons_self)
  have hzero {ms : Listing} (h : ∀ l ∈ referencedLabels ms,
      l.id < cursor.label ∨ cursor.label + 1 ≤ l.id) :
      (referencedLabels ms).count ⟨cursor.label⟩ = 0 := by
    refine List.count_eq_zero.mpr fun hm => ?_
    have hid : cursor.label < cursor.label ∨ cursor.label + 1 ≤ cursor.label := h _ hm
    omega
  have hbody := hzero fun l hl => .inr (hinner l hl)
  have hbefore := hzero fun l hl => houter l (List.mem_append_left _ hl)
  have hafter := hzero fun l hl => houter l (List.mem_append_right _ hl)
  refine ⟨by rw [hcode]; rfl, ?_, ?_⟩
  · rw [hls, hcode]
    simp [List.count_append, Expr.referencedLabels_branchCode, hbody, hbefore, hafter]
  · obtain ⟨test, op, htest⟩ : ∃ test op,
        (Expr.binary (.relation rel) left right tag span).branchCode scope ⟨cursor.label⟩ =
          test ++ [.branch op ⟨cursor.label⟩] := by
      rw [Expr.branchCode]
      cases (Operator.relation rel).comparisonOr left.tag right.tag with
      | direct b => exact ⟨_, b, rfl⟩
      | compared c b =>
        exact ⟨left.code scope ++ right.code scope ++ [.instruction c none], b,
          by simp [Jump.lines]⟩
    refine ⟨[.label ⟨cursor.label⟩] ++ body, test, op, ?_, fun n => ?_⟩
    · rw [hcode, htest]
    · rw [← htest]
      exact hwrites n

/-- The code of a conditional or a loop among others, given that what surrounds it leaves the labels
of its run alone. -/
theorem Stmt.segment_of_encloses {scope : Scope} {cursor : Cursor} {s : Stmt}
    {ls before after : Listing} (hd : ∀ site ∈ s.sites, site.defect? = none)
    (hc : (s.isIf || s.isLoop) = true) (hls : ls = before ++ s.code scope cursor ++ after)
    (hout : ∀ l ∈ referencedLabels before ++ referencedLabels after,
      l.id < cursor.label ∨ (s.after cursor).label ≤ l.id) :
    s.Segment scope cursor ls (s.code scope cursor) := by
  cases s with
  | ifThen cond body span =>
    obtain ⟨hcond, -⟩ := List.forall_mem_append.mp hd
    have hle : cursor.label + 3 ≤ _ := label_le_afterAll (cursor.skip 3) body
    have hcode : (Stmt.ifThen cond body span).code scope cursor =
        [.label ⟨cursor.label⟩] ++ cond.branchCode scope ⟨cursor.label + 1⟩ ++ [] ++
          [.branch .goto ⟨cursor.label + 2⟩, .label ⟨cursor.label + 1⟩] ++
          codeAll scope (cursor.skip 3) body ++ [] ++ [.label ⟨cursor.label + 2⟩] := by
      simp [Stmt.code]
    refine ifSegment_of_code hcond hcode hls (.inl rfl) (fun l hl => ?_) fun l hl => ?_
    · exact (mem_referencedLabels_codeAll hl).1
    · have hl := hout l hl
      rw [Stmt.after] at hl
      omega
  | ifElse cond body alternative span =>
    obtain ⟨hcond, -⟩ := List.forall_mem_append.mp hd
    have hla : cursor.label + 3 ≤ _ := label_le_afterAll (cursor.skip 3) alternative
    have hlb := label_le_afterAll (afterAll (cursor.skip 3) alternative) body
    have hcode : (Stmt.ifElse cond body alternative span).code scope cursor =
        [.label ⟨cursor.label⟩] ++ cond.branchCode scope ⟨cursor.label + 1⟩ ++
          codeAll scope (cursor.skip 3) alternative ++
          [.branch .goto ⟨cursor.label + 2⟩, .label ⟨cursor.label + 1⟩] ++
          codeAll scope (afterAll (cursor.skip 3) alternative) body ++
          [.branch .goto ⟨cursor.label + 2⟩] ++ [.label ⟨cursor.label + 2⟩] := by
      simp [Stmt.code]
    refine ifSegment_of_code hcond hcode hls (.inr rfl) (fun l hl => ?_) fun l hl => ?_
    · rcases List.mem_append.mp hl with hl | hl
      · exact (mem_referencedLabels_codeAll hl).1
      · exact Nat.le_trans hla (mem_referencedLabels_codeAll hl).1
    · have hl := hout l hl
      rw [Stmt.after] at hl
      omega
  | loop body cond span =>
    obtain ⟨-, hcond⟩ := List.forall_mem_append.mp hd
    have hle : cursor.label + 1 ≤ _ := label_le_afterAll (cursor.skip 1) body
    refine loopSegment_of_code hcond rfl hls (fun l hl => ?_) fun l hl => ?_
    · exact (mem_referencedLabels_codeAll hl).1
    · have hl := hout l hl
      rw [Stmt.after] at hl
      omega
  | _ => contradiction

/-- The labels of the code of a statement are those of its run. -/
theorem Stmt.mem_definedLabels_code_iff {scope : Scope} {cursor : Cursor} {s : Stmt} {l : Label} :
    l ∈ definedLabels (s.code scope cursor) ↔
      cursor.label ≤ l.id ∧ l.id < (s.after cursor).label := by
  rw [← List.count_pos_iff, s.count_definedLabels_code, Label.countIn]
  split <;> simp_all

theorem Label.count_range (n : Nat) (l : Label) :
    ((List.range n).map Label.mk).count l = l.countIn 0 n := by
  induction n with
  | zero => exact (l.countIn_self 0).symm
  | succ n ih =>
    rw [List.range_succ, List.map_append, List.count_append, ih]
    exact (congrArg _ (Label.count_singleton n l)).trans
      (l.countIn_add (Nat.zero_le n) (Nat.le_succ n))

namespace Program

/-- All statements of a program, each with the cursor that it is lowered at. -/
def visits (p : Program) : List (Cursor × Stmt) := visitsAll ⟨0, 0⟩ p.body

theorem count_definedLabels {p : Program} {options : Options} {u : ClassUnit}
    (h : p.unit options = .ok u) (l : Label) :
    (definedLabels u.listing).count l =
      l.countIn 0 (3 * ifCount p.visits + loopCount p.visits) := by
  obtain ⟨before, after, hls, hb, ha⟩ := listing_body h
  have hend := label_afterAll ⟨0, 0⟩ p.body
  rw [hls, definedLabels_append, definedLabels_append, hb.defined, ha.defined, List.nil_append,
    List.append_nil, count_definedLabels_codeAll, hend, visits]
  simp

theorem mem_definedLabels_iff {p : Program} {options : Options} {u : ClassUnit}
    (h : p.unit options = .ok u) (l : Label) :
    l ∈ definedLabels u.listing ↔ l.id < 3 * ifCount p.visits + loopCount p.visits := by
  rw [← List.count_pos_iff, count_definedLabels h, Label.countIn]
  split <;> simp_all

theorem definedLabels_perm {p : Program} {options : Options} {u : ClassUnit}
    (h : p.unit options = .ok u) :
    (definedLabels u.listing).Perm
      ((List.range (3 * ifCount p.visits + loopCount p.visits)).map Label.mk) := by
  refine List.perm_iff_count.mpr fun l => ?_
  rw [count_definedLabels h, Label.count_range]

/-- Every branch in a class goes to a label that is defined in it. -/
theorem mem_definedLabels_of_referenced {p : Program} {options : Options} {u : ClassUnit}
    (h : p.unit options = .ok u) {l : Label} (hl : l ∈ referencedLabels u.listing) :
    l ∈ definedLabels u.listing := by
  obtain ⟨before, after, hls, hb, ha⟩ := listing_body h
  rw [hls, referencedLabels_append, referencedLabels_append, hb.referenced, ha.referenced,
    List.nil_append, List.append_nil] at hl
  have hlt := (mem_referencedLabels_codeAll hl).2
  rw [label_afterAll] at hlt
  exact (mem_definedLabels_iff h l).mpr (by simpa [visits] using hlt)

theorem violations_eq_nil {p : Program} {options : Options} {u : ClassUnit}
    (h : p.unit options = .ok u) : violations u.listing = [] := by
  refine List.eq_nil_iff_forall_not_mem.mpr fun l hl => ?_
  rcases mem_violations_iff.mp hl with hcount | ⟨href, hdef⟩
  · rw [count_definedLabels h, Label.countIn] at hcount
    split at hcount <;> omega
  · exact hdef (mem_definedLabels_of_referenced h href)

/-- The labels of a class are numbered from zero on, three for each conditional and one for each
loop. Each is defined once, and every branch goes to one of them. Every conditional and every loop
is lowered at labels of its own to one piece of the listing that no branch leaves or enters. -/
theorem label_discipline {p : Program} {options : Options} {u : ClassUnit}
    (h : p.unit options = .ok u) :
    (definedLabels u.listing).Perm
        ((List.range (3 * ifCount p.visits + loopCount p.visits)).map Label.mk) ∧
      (∀ l ∈ referencedLabels u.listing, l ∈ definedLabels u.listing) ∧
      violations u.listing = [] ∧
      ((controls p.visits).Pairwise fun v w => v.1.label < w.1.label) ∧
      ∀ v ∈ controls p.visits, ∃ before code after, u.listing = before ++ code ++ after ∧
        (v.2.lowerBare (p.scope options) v.1).Writes v.1.line code (v.2.after v.1).line ∧
        (∀ l ∈ referencedLabels code, l ∈ definedLabels code) ∧
        (∀ l ∈ definedLabels code, l ∉ referencedLabels before ∧ l ∉ referencedLabels after) ∧
        v.2.Segment (p.scope options) v.1 u.listing code := by
  refine ⟨definedLabels_perm h, fun l => mem_definedLabels_of_referenced h, violations_eq_nil h,
    pairwise_controlsAll _ _, fun v hv => ?_⟩
  obtain ⟨hv, hc⟩ := mem_controls.mp hv
  obtain ⟨hb, -⟩ := lower_ok (unit_eq_ok h).1
  have hok := result_of_mem_visitsAll hb hv
  obtain ⟨front, back, hls, hfront, hback⟩ := listing_body h
  obtain ⟨-, -, hin⟩ := encloses_of_mem_visitsAll (p.scope options) hv
  obtain ⟨before, after, hcode, hout⟩ := hin.extend front back (by
    rw [hfront.referenced, hback.referenced]; simp)
  rw [← hls] at hcode
  obtain ⟨-, hw⟩ := v.2.lowerBare_writes _ _ hok
  refine ⟨before, _, after, hcode, hw, fun l hl => ?_, fun l hl => ?_,
    Stmt.segment_of_encloses (Stmt.result_lowerBare_iff.mp hok).1 hc hcode hout⟩
  · exact Stmt.mem_definedLabels_code_iff.mpr (Stmt.mem_referencedLabels_code hl)
  · have hrun := Stmt.mem_definedLabels_code_iff.mp hl
    refine ⟨fun hm => ?_, fun hm => ?_⟩
    · have := hout l (List.mem_append_left _ hm)
      omega
    · have := hout l (List.mem_append_right _ hm)
      omega

theorem countdown_label_discipline :
    ∃ u, countdown.unit {} = .ok u ∧
      (definedLabels u.listing).Perm [⟨0⟩, ⟨1⟩, ⟨2⟩, ⟨3⟩] ∧ violations u.listing = [] ∧
      ∃ cursor s, (cursor, s) ∈ controls countdown.visits ∧ s.isLoop = true ∧
        ∃ before code after, u.listing = before ++ code ++ after ∧
          (∀ l ∈ definedLabels code, l ∉ referencedLabels before ∧ l ∉ referencedLabels after) ∧
          s.Segment (countdown.scope {}) cursor u.listing code := by
  obtain ⟨u, hu, -⟩ := countdown_unit
  obtain ⟨hperm, -, hviolations, -, hsegments⟩ := label_discipline hu
  obtain ⟨v, hv, hloop⟩ : ∃ v ∈ controls countdown.visits, v.2.isLoop = true :=
    ⟨_, List.mem_cons_self, rfl⟩
  obtain ⟨before, code, after, hcode, -, -, hclosed, hsegment⟩ := hsegments v hv
  exact ⟨u, hu, hperm, hviolations, v.1, v.2, hv, hloop, before, code, after, hcode, hclosed,
    hsegment⟩

end Program

end StackLowering
