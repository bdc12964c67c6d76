import Mathlib.Data.List.Destutter
import StackLowering.Proofs.LabelDiscipline
import StackLowering.Proofs.Positions

/-!
Echoes of source lines. In the lowered body of a program everything that is not code is the echo of
a source line. The echoed lines are those of the statements in the order in which they are lowered,
unknown ones left out and repeated ones taken once, and each echo stands right before the code of
the statement that moves to its line.
-/
namespace StackLowering

/-! Changes of the line. -/

namespace Source

/-- The known ones of some lines, without those that repeat the one before. -/
def changes (lines : List UInt32) : List UInt32 := (lines.filter (· ≠ 0)).destutter (· ≠ ·)

/-- The lines that are moved to where line `n` is current. -/
def changesFrom (n : UInt32) : List UInt32 → List UInt32
  | [] => []
  | m :: ms => if m ≠ 0 ∧ m ≠ n then m :: changesFrom m ms else changesFrom n ms

/-- The line that is current in the end where line `n` is current at first. -/
def current (n : UInt32) : List UInt32 → UInt32
  | [] => n
  | m :: ms => if m ≠ 0 ∧ m ≠ n then current m ms else current n ms

theorem changesFrom_append (n : UInt32) (ls ms : List UInt32) :
    changesFrom n (ls ++ ms) = changesFrom n ls ++ changesFrom (current n ls) ms := by
  induction ls generalizing n with
  | nil => rfl
  | cons l ls ih =>
    rw [List.cons_append, changesFrom, changesFrom, current]
    by_cases h : l ≠ 0 ∧ l ≠ n
    · rw [if_pos h, if_pos h, if_pos h, ih, List.cons_append]
    · rw [if_neg h, if_neg h, if_neg h, ih]

theorem current_append (n : UInt32) (ls ms : List UInt32) :
    current n (ls ++ ms) = current (current n ls) ms := by
  induction ls generalizing n with
  | nil => rfl
  | cons l ls ih =>
    rw [List.cons_append, current, current]
    by_cases h : l ≠ 0 ∧ l ≠ n
    · rw [if_pos h, if_pos h, ih]
    · rw [if_neg h, if_neg h, ih]

theorem cons_changesFrom (n : UInt32) (lines : List UInt32) :
    n :: changesFrom n lines = (lines.filter (· ≠ 0)).destutter' (· ≠ ·) n := by
  induction lines generalizing n with
  | nil => rfl
  | cons m ms ih =>
    rw [changesFrom]
    by_cases hzero : m = 0
    · rw [if_neg (fun h => h.1 hzero), List.filter_cons_of_neg (by simp [hzero]), ih]
    · rw [List.filter_cons_of_pos (by simp [hzero])]
      by_cases hsame : m = n
      · rw [if_neg (fun h => h.2 hsame), List.destutter'_cons_neg _ (by simp [hsame]), ih]
      · rw [if_pos ⟨hzero, hsame⟩, List.destutter'_cons_pos _ (Ne.symm hsame), ih]

/-- Where no line is current yet, moving is changing. -/
theorem changesFrom_zero (lines : List UInt32) : changesFrom 0 lines = changes lines := by
  have hcons := cons_changesFrom 0 lines
  rw [changes]
  cases hknown : lines.filter (· ≠ 0) with
  | nil =>
    rw [hknown] at hcons
    exact (List.cons.inj hcons).2
  | cons m ms =>
    have hm : m ∈ lines.filter (· ≠ 0) := by
      rw [hknown]
      exact List.mem_cons_self
    have hne : 0 ≠ m := Ne.symm (of_decide_eq_true (List.mem_filter.mp hm).2)
    rw [hknown, List.destutter'_cons_pos _ hne] at hcons
    exact (List.cons.inj hcons).2

end Source

open Source

/-- The source lines of visited statements. -/
def visitedLines (vs : List (Cursor × Stmt)) : List UInt32 := vs.map (·.2.span.line)

theorem visitedLines_append (vs ws : List (Cursor × Stmt)) :
    visitedLines (vs ++ ws) = visitedLines vs ++ visitedLines ws := List.map_append

theorem Cursor.line_moveTo (cursor : Cursor) (span : Span) :
    (cursor.moveTo span).line = current cursor.line [span.line] := by
  unfold moveTo
  simp only [current, Span.known, bne_iff_ne]
  split <;> rfl

theorem Scope.annotationLines_eq (scope : Scope) (cursor : Cursor) (span : Span) :
    scope.annotationLines cursor span =
      (changesFrom cursor.line [span.line]).flatMap scope.echoLines := by
  unfold annotationLines
  simp only [changesFrom, Span.known, bne_iff_ne]
  split
  · exact (List.flatMap_singleton _ _).symm
  · rfl

/-! Lines that hold echoes. -/

namespace Scope

/-- In the lines `ls` the code of the visit `v` stands right behind the echo of its own line, and
that behind the echoes for the visits `front`, where line `n` is current at first. -/
def Announces (scope : Scope) (n : UInt32) (front : List (Cursor × Stmt)) (v : Cursor × Stmt)
    (ls : List Line) : Prop :=
  ∃ before after,
    ls = before ++ ((changesFrom (current n (visitedLines front)) [v.2.span.line]).flatMap
      scope.echoLines ++ v.2.code scope v.1) ++ after ∧
    before.filter (!·.isCode) = (changesFrom n (visitedLines front)).flatMap scope.echoLines

/-- The lines `ls` are the code of the visits `vs` and the echoes of their source lines, where line
`n` is current at first. -/
structure Echoes (scope : Scope) (n : UInt32) (vs : List (Cursor × Stmt)) (ls : List Line) :
    Prop where
  /-- All that is not code echoes the lines that are moved to. -/
  remarks : ls.filter (!·.isCode) = (changesFrom n (visitedLines vs)).flatMap scope.echoLines
  placed : ∀ front v back, vs = front ++ v :: back → scope.Announces n front v ls

variable {scope : Scope} {n : UInt32} {vs ws : List (Cursor × Stmt)} {ls ms : List Line}

theorem Announces.extend {front : List (Cursor × Stmt)} {v : Cursor × Stmt}
    (h : scope.Announces n front v ls) (ms : List Line) :
    scope.Announces n front v (ls ++ ms) := by
  obtain ⟨before, after, hls, hbefore⟩ := h
  refine ⟨before, after ++ ms, ?_, hbefore⟩
  rw [hls]
  simp only [List.append_assoc]

/-- What is announced stays so behind the lines of other visits. -/
theorem Announces.later {front : List (Cursor × Stmt)} {v : Cursor × Stmt}
    (hls : ls.filter (!·.isCode) = (changesFrom n (visitedLines vs)).flatMap scope.echoLines)
    (h : scope.Announces (current n (visitedLines vs)) front v ms) :
    scope.Announces n (vs ++ front) v (ls ++ ms) := by
  obtain ⟨before, after, hms, hbefore⟩ := h
  refine ⟨ls ++ before, after, ?_, ?_⟩
  · rw [hms, visitedLines_append, current_append]
    simp only [List.append_assoc]
  · rw [List.filter_append, hls, hbefore, visitedLines_append, changesFrom_append,
      List.flatMap_append]

namespace Echoes

theorem code (h : ls.all Line.isCode = true) : scope.Echoes n [] ls := by
  refine ⟨?_, ?_⟩
  · apply List.filter_eq_nil_iff.mpr
    intro line hline
    simp [List.all_eq_true.mp h line hline]
  · intro front v back hsplit
    simp at hsplit

theorem append (hv : scope.Echoes n vs ls)
    (hw : scope.Echoes (current n (visitedLines vs)) ws ms) :
    scope.Echoes n (vs ++ ws) (ls ++ ms) := by
  refine ⟨?_, ?_⟩
  · rw [List.filter_append, hv.remarks, hw.remarks, visitedLines_append, changesFrom_append,
      List.flatMap_append]
  · intro front v back hsplit
    rcases List.append_eq_append_iff.mp hsplit with ⟨rest, rfl, hws⟩ | ⟨rest, hvs, hrest⟩
    · exact .later hv.remarks (hw.placed rest v back hws)
    · cases rest with
      | nil =>
        -- The visit is the first of `ws`, so that all of `vs` is before it.
        rw [List.append_nil] at hvs
        subst hvs
        have hlater := Announces.later hv.remarks (hw.placed [] v back hrest.symm)
        rwa [List.append_nil] at hlater
      | cons x rest =>
        obtain ⟨rfl, -⟩ := List.cons.inj hrest
        exact (hv.placed front v rest hvs).extend ms

/-- Echoing lines behind code. -/
theorem behind (hc : ls.all Line.isCode = true) (h : scope.Echoes n vs ms) :
    scope.Echoes n vs (ls ++ ms) := append (code hc) h

/-- Echoing lines ahead of code. -/
theorem ahead (h : scope.Echoes n vs ls) (hc : ms.all Line.isCode = true) :
    scope.Echoes n vs (ls ++ ms) := by
  have happend := append h (code hc)
  rwa [List.append_nil] at happend

/-- A visit starts with the echo of its own line. -/
theorem visit {cursor : Cursor} {s : Stmt}
    (h : scope.Echoes (cursor.moveTo s.span).line vs (s.code scope (cursor.moveTo s.span))) :
    scope.Echoes cursor.line ((cursor.moveTo s.span, s) :: vs)
      (scope.annotationLines cursor s.span ++ s.code scope (cursor.moveTo s.span)) := by
  have hremarks : (scope.annotationLines cursor s.span).filter (!·.isCode) =
      (changesFrom cursor.line (visitedLines [(cursor.moveTo s.span, s)])).flatMap
        scope.echoLines := by
    change _ = (changesFrom cursor.line [s.span.line]).flatMap scope.echoLines
    rw [← annotationLines_eq]
    apply List.filter_eq_self.mpr
    intro line hline
    have hremark := isRemark_of_mem hline
    cases line <;> first | rfl | contradiction
  rw [Cursor.line_moveTo] at h
  refine ⟨?_, ?_⟩
  · change _ = (changesFrom cursor.line ([s.span.line] ++ visitedLines vs)).flatMap _
    rw [List.filter_append, hremarks, h.remarks, changesFrom_append, List.flatMap_append]
    rfl
  · intro front v back hsplit
    cases front with
    | nil =>
      obtain ⟨rfl, -⟩ := List.cons.inj hsplit
      refine ⟨[], [], ?_, rfl⟩
      rw [annotationLines_eq, List.append_nil]
      rfl
    | cons x front =>
      obtain ⟨rfl, hvs⟩ := List.cons.inj hsplit
      have hlater := Announces.later hremarks (h.placed front v back hvs)
      exact hlater

end Echoes

end Scope

/-! The code of statements. -/

theorem all_isCode_of_operates {ls : List Line} (h : ∀ line ∈ ls, line.Operates) :
    ls.all Line.isCode = true :=
  List.all_eq_true.mpr (List.filter_eq_self.mp (filter_isCode_of_operates h))

theorem Expr.all_isCode_branchCode (scope : Scope) (target : Label) (e : Expr) :
    (e.branchCode scope target).all Line.isCode = true :=
  all_isCode_of_operates fun _ => operates_of_mem_branchCode

/-- The statements inside of a statement, in the order in which they are lowered. -/
def Stmt.parts (cursor : Cursor) (s : Stmt) : List (Cursor × Stmt) := (s.visits cursor).tail

theorem Stmt.visits_eq (cursor : Cursor) (s : Stmt) :
    s.visits cursor = (cursor, s) :: s.parts cursor := by
  cases s <;> rfl

mutual

theorem Stmt.line_after (cursor : Cursor) (s : Stmt) :
    (s.after cursor).line = current cursor.line (visitedLines (s.parts cursor)) := by
  cases s with
  | assign target value span => rfl
  | block body span => exact line_afterAll cursor body
  | ifThen cond body span => exact line_afterAll (cursor.skip 3) body
  | ifElse cond body alternative span =>
    have halternative := line_afterAll (cursor.skip 3) alternative
    have hbody := line_afterAll (afterAll (cursor.skip 3) alternative) body
    rw [halternative, ← current_append, ← visitedLines_append] at hbody
    exact hbody
  | loop body cond span => exact line_afterAll (cursor.skip 1) body
  | print format args span => rfl

theorem line_afterAll (cursor : Cursor) (ss : List Stmt) :
    (afterAll cursor ss).line = current cursor.line (visitedLines (visitsAll cursor ss)) := by
  cases ss with
  | nil => rfl
  | cons s ss =>
    have hs := s.line_after (cursor.moveTo s.span)
    have hss := line_afterAll (s.after (cursor.moveTo s.span)) ss
    rw [Cursor.line_moveTo] at hs
    rw [afterAll, hss, hs, visitsAll, Stmt.visits_eq, visitedLines_append, current_append]
    exact congrArg (current · _) (current_append cursor.line [s.span.line] _).symm

end

mutual

theorem Stmt.echoes_code (scope : Scope) (cursor : Cursor) (s : Stmt) :
    scope.Echoes cursor.line (s.parts cursor) (s.code scope cursor) := by
  cases s with
  | assign target value span =>
    refine .ahead (.code ?_) rfl
    exact all_isCode_of_operates fun _ => Expr.operates_of_mem_code
  | block body span => exact echoes_codeAll scope cursor body
  | ifThen cond body span =>
    have hbranch := cond.all_isCode_branchCode scope ⟨cursor.label + 1⟩
    refine .ahead (.behind ?_ (echoes_codeAll scope (cursor.skip 3) body)) rfl
    rw [List.all_append, List.all_append, hbranch]
    rfl
  | ifElse cond body alternative span =>
    have hbranch := cond.all_isCode_branchCode scope ⟨cursor.label + 1⟩
    have halternative := echoes_codeAll scope (cursor.skip 3) alternative
    have hbody := echoes_codeAll scope (afterAll (cursor.skip 3) alternative) body
    rw [line_afterAll] at hbody
    refine .ahead (.append (.ahead (.behind ?_ halternative) rfl) hbody) rfl
    rw [List.all_append, hbranch]
    rfl
  | loop body cond span =>
    refine .ahead (.behind rfl (echoes_codeAll scope (cursor.skip 1) body)) ?_
    exact cond.all_isCode_branchCode scope ⟨cursor.label⟩
  | print format args span =>
    rw [Stmt.code]
    cases formatText? format with
    | none => exact .code rfl
    | some text => exact .code (all_isCode_of_operates fun _ => operates_of_mem_printCode)

theorem echoes_codeAll (scope : Scope) (cursor : Cursor) (ss : List Stmt) :
    scope.Echoes cursor.line (visitsAll cursor ss) (codeAll scope cursor ss) := by
  cases ss with
  | nil => exact .code rfl
  | cons s ss =>
    have hs := Scope.Echoes.visit (s.echoes_code scope (cursor.moveTo s.span))
    have hss := echoes_codeAll scope (s.after (cursor.moveTo s.span)) ss
    have hline : (s.after (cursor.moveTo s.span)).line =
        current cursor.line (visitedLines (s.visits (cursor.moveTo s.span))) := by
      rw [s.line_after, Cursor.line_moveTo, ← current_append, Stmt.visits_eq]
      rfl
    rw [hline] at hss
    rw [← Stmt.visits_eq] at hs
    exact hs.append hss

end

namespace Program

/-- The lines for a source line: its text after a blank line and its number, as the options ask for
them. A line that the program does not have has no text. -/
def annotation (p : Program) (options : Options) (n : UInt32) : List Line :=
  (if options.sourceComments then
    match p.sourceLine? n with
    | some text => [.blank, .comment text]
    | none => []
  else []) ++
    if options.lineDirectives then [.directive s!".line {n}"] else []

theorem echoLines_scope (p : Program) (options : Options) :
    (p.scope options).echoLines = p.annotation options := by
  funext n
  simp only [Scope.echoLines, Scope.sourceLine?, scope, Scope.source_declareAll,
    Scope.options_declareAll]
  rfl

/-- In the body of a lowered program the lines that are not code are the annotations of the lines
that change, in their order. The code of every statement stands right behind the annotation of its
own line, if the statement changes the line, and that stands behind the annotations of all
statements before it. -/
theorem annotations_are_line_changes {p : Program} {options : Options} {u : ClassUnit}
    (h : p.unit options = .ok u) :
    ∃ body, u.listing =
        p.opening options ++ .blank :: (p.scope options).prologueCode ++ body ++
          ((p.scope options).epilogueCode ++ closing options (p.stackLimit options)) ∧
      body.filter (!·.isCode) =
        (changes (visitedLines p.visits)).flatMap (p.annotation options) ∧
      ∀ front cursor s back, p.visits = front ++ (cursor, s) :: back → ∃ own before after,
        changes (visitedLines (front ++ [(cursor, s)])) = changes (visitedLines front) ++ own ∧
        body = before ++ (own.flatMap (p.annotation options) ++
          s.code (p.scope options) cursor) ++ after ∧
        before.filter (!·.isCode) =
          (changes (visitedLines front)).flatMap (p.annotation options) := by
  obtain ⟨hremarks, hplaced⟩ := echoes_codeAll (p.scope options) ⟨0, 0⟩ p.body
  rw [echoLines_scope] at hremarks
  refine ⟨codeAll (p.scope options) ⟨0, 0⟩ p.body, ?_, ?_, ?_⟩
  · rw [listing_eq h, mainCode]
    simp only [List.append_assoc, List.cons_append]
  · rw [hremarks, changesFrom_zero]
    rfl
  · intro front cursor s back hsplit
    obtain ⟨before, after, hbody, hbefore⟩ := hplaced front (cursor, s) back hsplit
    rw [echoLines_scope] at hbody hbefore
    refine ⟨_, before, after, ?_, hbody, ?_⟩
    · rw [← changesFrom_zero, ← changesFrom_zero, visitedLines_append, changesFrom_append]
      rfl
    · rw [hbefore, changesFrom_zero]

/-- A block and statements on one line with it, a statement without a position, an alternative on
the line of its conditional, and a line behind the end of the text. -/
def patchwork : Program where
  name := "Patchwork"
  source := some "var n : integer;\n  begin n := 1; n := 2 end;\n  if n < 2 then n := 3"
  decls := [⟨"n", .integer, ⟨1, 5, 1⟩⟩]
  body :=
    [.block
        [.assign ⟨"n", .integer, ⟨2, 9, 1⟩⟩ (.literal .int "1" .integer ⟨2, 14, 1⟩) ⟨2, 9, 6⟩,
          .assign ⟨"n", .integer, .nowhere⟩ (.literal .int "0" .integer .nowhere) .nowhere,
          .assign ⟨"n", .integer, ⟨2, 17, 1⟩⟩ (.literal .int "2" .integer ⟨2, 22, 1⟩) ⟨2, 17, 6⟩]
        ⟨2, 3, 5⟩,
      .ifElse (.binary (.relation .lt) (.var ⟨"n", .integer, ⟨3, 6, 1⟩⟩)
          (.literal .int "2" .integer ⟨3, 10, 1⟩) .unknown ⟨3, 6, 5⟩)
        [.print "'%d\\n'" [.var ⟨"n", .integer, ⟨9, 20, 1⟩⟩] ⟨9, 5, 17⟩]
        [.assign ⟨"n", .integer, ⟨3, 17, 1⟩⟩ (.literal .int "3" .integer ⟨3, 22, 1⟩) ⟨3, 17, 6⟩]
        ⟨3, 3, 2⟩,
      .assign ⟨"n", .integer, ⟨3, 30, 1⟩⟩ (.literal .int "4" .integer ⟨3, 35, 1⟩) ⟨3, 30, 6⟩]

theorem patchwork_annotations :
    ∃ u body, patchwork.unit { lineDirectives := true } = .ok u ∧ body <:+: u.listing ∧
      body.filter (!·.isCode) =
        [.blank, .comment "begin n := 1; n := 2 end;", .directive ".line 2", .blank,
          .comment "if n < 2 then n := 3", .directive ".line 3", .directive ".line 9", .blank,
          .comment "if n < 2 then n := 3", .directive ".line 3"] ∧
      [.directive ".line 9", .instruction .getStatic (some Library.systemOut)] <:+: body := by
  have hsound : patchwork.sites.findSome? Site.defect? = none := rfl
  obtain ⟨u, hu⟩ := exists_unit_of_no_defect hsound { lineDirectives := true }
  obtain ⟨body, hlisting, hremarks, hplaced⟩ := annotations_are_line_changes hu
  have hchanges : changes (visitedLines patchwork.visits) = [2, 3, 9, 3] := rfl
  obtain ⟨s, hsplit, hline, rest, hcode⟩ : ∃ s, patchwork.visits = patchwork.visits.take 6 ++
      (⟨3, 9⟩, s) :: patchwork.visits.drop 7 ∧ s.span.line = 9 ∧
      ∃ rest, s.code (patchwork.scope { lineDirectives := true }) ⟨3, 9⟩ =
        .instruction .getStatic (some Library.systemOut) :: rest := ⟨_, rfl, rfl, _, rfl⟩
  obtain ⟨own, before, after, hown, hbody, -⟩ := hplaced _ _ _ _ hsplit
  have hnine : [2, 3] ++ own = [2, 3] ++ [9] := by
    rw [visitedLines_append] at hown
    change changes (_ ++ [s.span.line]) = _ at hown
    rw [hline] at hown
    exact hown.symm
  refine ⟨u, body, hu, ⟨_, _, hlisting.symm⟩, ?_, before, rest ++ after, ?_⟩
  · rw [hremarks, hchanges]
    decide +kernel
  · rw [hbody, List.append_cancel_left hnine, hcode]
    simp only [List.append_assoc]
    rfl

end Program

end StackLowering
