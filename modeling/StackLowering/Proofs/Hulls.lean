import Mathlib.Order.Bounds.Basic
import StackLowering.Proofs.Placement

/-!
Hulls of spans. Joins of spans that stand on one line can be grouped and ordered at will: the result
is the least interval that holds them all. Across lines this fails, since such a join begins with
its first span and adds up lengths.
-/
namespace StackLowering

namespace Span

/-- The values that a measure takes on some spans. -/
def valuesOf (measure : Span → Nat) (spans : List Span) : Set Nat :=
  {n | ∃ s ∈ spans, measure s = n}

theorem valuesOf_singleton (measure : Span → Nat) (s : Span) :
    valuesOf measure [s] = {measure s} := by
  ext n
  simp [valuesOf, eq_comm]

theorem valuesOf_append (measure : Span → Nat) (ss ts : List Span) :
    valuesOf measure (ss ++ ts) = valuesOf measure ss ∪ valuesOf measure ts := by
  ext n
  simp [valuesOf, or_and_right, exists_or]

/-- The span `r` is the least interval that holds some spans, all of which stand on its line. -/
structure IsHull (r : Span) (spans : List Span) : Prop where
  line : ∀ s ∈ spans, s.line = r.line
  first : IsLeast (valuesOf (·.col.toNat) spans) r.col.toNat
  last : IsGreatest (valuesOf stop spans) r.stop

namespace IsHull

theorem singleton (s : Span) : s.IsHull [s] where
  line t ht := congrArg Span.line (List.mem_singleton.mp ht)
  first := by
    rw [valuesOf_singleton]
    exact isLeast_singleton
  last := by
    rw [valuesOf_singleton]
    exact isGreatest_singleton

/-- A hull stops where one of its spans does. -/
theorem stop_lt {r : Span} {spans : List Span} (h : r.IsHull spans) {n : Nat}
    (hspans : ∀ s ∈ spans, s.stop < n) : r.stop < n := by
  obtain ⟨s, hs, hstop⟩ := h.last.1
  exact hstop ▸ hspans s hs

/-- Joined on one line, two hulls are the hull of everything in them. -/
theorem join {a b r : Span} {ss ts : List Span} (ha : a.IsHull ss) (hb : b.IsHull ts)
    (hline : a.line = b.line) (hjoin : a.ExactJoin b r) : r.IsHull (ss ++ ts) := by
  obtain ⟨hcol, hstop⟩ := hjoin.hull hline
  constructor
  · intro s hs
    rw [hjoin.line]
    rcases List.mem_append.mp hs with hs | hs
    · exact ha.line s hs
    · exact (hb.line s hs).trans hline.symm
  · rw [valuesOf_append, hcol, UInt32.toNat_min]
    exact ha.first.union hb.first
  · rw [valuesOf_append, hstop]
    exact ha.last.union hb.last

/-- The order of the spans does not matter to a hull. -/
theorem perm {r : Span} {ss ts : List Span} (h : r.IsHull ss) (hp : ss.Perm ts) :
    r.IsHull ts := by
  have hvalues (measure : Span → Nat) : valuesOf measure ss = valuesOf measure ts := by
    ext n
    simp only [valuesOf, hp.mem_iff]
  exact ⟨fun s hs => h.line s (hp.mem_iff.mpr hs), hvalues _ ▸ h.first, hvalues _ ▸ h.last⟩

/-- There is at most one hull. -/
theorem unique {r r' : Span} {spans : List Span} (h : r.IsHull spans) (h' : r'.IsHull spans) :
    r = r' := by
  obtain ⟨s, hs, -⟩ := h.first.1
  have hline : r.line = r'.line := (h.line s hs).symm.trans (h'.line s hs)
  have hcol : r.col = r'.col := UInt32.toNat_inj.mp (h.first.unique h'.first)
  -- With the same start, spans that stop together have the same length.
  have hstop : r.stop = r'.stop := h.last.unique h'.last
  have hlen : r.len = r'.len := by
    unfold stop at hstop
    rw [hcol] at hstop
    exact UInt32.toNat_inj.mp (Nat.add_left_cancel hstop)
  calc r = ⟨r.line, r.col, r.len⟩ := rfl
    _ = ⟨r'.line, r'.col, r'.len⟩ := by rw [hline, hcol, hlen]
    _ = r' := rfl

end IsHull

/-- A way to join spans two by two until one is left. -/
inductive Grouping where
  | one (s : Span)
  | pair (left right : Grouping)
deriving DecidableEq, Repr

namespace Grouping

/-- The spans of a grouping. There is always one. -/
def spans : Grouping → List Span
  | one s => [s]
  | pair left right => left.spans ++ right.spans

def joined? : Grouping → Option Span
  | one s => some s
  | pair left right => do
    let a ← left.joined?
    let b ← right.joined?
    a.join? b

/-- Every join of a grouping computes with words what numbers would give: no sum runs over a word,
and no difference runs below zero. -/
def Exact : Grouping → Prop
  | one _ => True
  | pair left right => left.Exact ∧ right.Exact ∧
    ∃ a b r, left.joined? = some a ∧ right.joined? = some b ∧ a.ExactJoin b r

theorem joined?_pair {left right : Grouping} {a b r : Span} (ha : left.joined? = some a)
    (hb : right.joined? = some b) (hjoin : a.ExactJoin b r) :
    (pair left right).joined? = some r := by
  rw [joined?, ha, hb]
  exact hjoin.joined

/-- The hull of the spans goes up the tree: each join finds the hulls of its two sides. -/
theorem exists_isHull (g : Grouping) (line : UInt32)
    (h : ∀ s ∈ g.spans, s.line = line ∧ s.stop < UInt32.size) :
    ∃ r, g.joined? = some r ∧ g.Exact ∧ r.line = line ∧ r.IsHull g.spans := by
  induction g with
  | one s => exact ⟨s, rfl, trivial, (h s List.mem_cons_self).1, .singleton s⟩
  | pair left right ihl ihr =>
    obtain ⟨hleft, hright⟩ := List.forall_mem_append.mp h
    obtain ⟨a, hja, hea, hla, ha⟩ := ihl hleft
    obtain ⟨b, hjb, heb, hlb, hb⟩ := ihr hright
    have hline : a.line = b.line := hla.trans hlb.symm
    -- The partial results stop where spans of the grouping do, so they stop at words again.
    obtain ⟨r, hr⟩ := exists_exactJoin_of_line_eq hline
      (ha.stop_lt fun s hs => (hleft s hs).2) (hb.stop_lt fun s hs => (hright s hs).2)
    exact ⟨r, joined?_pair hja hjb hr, ⟨hea, heb, a, b, r, hja, hjb, hr⟩, hr.line.trans hla,
      ha.join hb hline hr⟩

/-- Spans of one line that stop at words are joined to their hull, with every join on the way exact,
and neither the grouping nor the order of the spans shows in the result. -/
theorem joined_to_hull (g : Grouping) (line : UInt32)
    (h : ∀ s ∈ g.spans, s.line = line ∧ s.col.toNat + s.len.toNat < 2 ^ 32) :
    ∃ r, g.joined? = some r ∧ g.Exact ∧ r.line = line ∧ r.IsHull g.spans ∧
      ∀ g' : Grouping, g'.spans.Perm g.spans → g'.joined? = some r := by
  obtain ⟨r, hjoined, hexact, hline, hhull⟩ := exists_isHull g line h
  refine ⟨r, hjoined, hexact, hline, hhull, ?_⟩
  intro g' hperm
  obtain ⟨r', hjoined', -, -, hhull'⟩ :=
    exists_isHull g' line fun s hs => h s (hperm.mem_iff.mp hs)
  rw [hjoined', hhull'.unique (hhull.perm hperm.symm)]

/-- Spans at both ends of the columns and between them, two of them alike. -/
def scattered : Grouping :=
  .pair (.pair (.one ⟨7, 40, 2⟩) (.one ⟨7, 4294967290, 5⟩))
    (.pair (.one ⟨7, 0, 0⟩) (.pair (.one ⟨7, 12, 90⟩) (.one ⟨7, 40, 2⟩)))

/-- The same spans, joined one by one from the right. -/
def lined : Grouping :=
  .pair (.one ⟨7, 0, 0⟩) (.pair (.one ⟨7, 40, 2⟩) (.pair (.one ⟨7, 12, 90⟩)
    (.pair (.one ⟨7, 40, 2⟩) (.one ⟨7, 4294967290, 5⟩))))

theorem scattered_joined_to_hull :
    scattered.Exact ∧ IsHull ⟨7, 0, 4294967295⟩ scattered.spans ∧
      scattered.joined? = some ⟨7, 0, 4294967295⟩ ∧ lined.joined? = some ⟨7, 0, 4294967295⟩ := by
  obtain ⟨r, hjoined, hexact, -, hhull, hperm⟩ := joined_to_hull scattered 7 (by decide)
  have hr : r = ⟨7, 0, 4294967295⟩ := Option.some.inj (hjoined.symm.trans rfl)
  subst hr
  exact ⟨hexact, hhull, hjoined, hperm lined (by decide)⟩

-- On two lines the order shows, in the line as well as in the column.
example : (pair (one ⟨1, 5, 2⟩) (one ⟨2, 1, 3⟩)).joined? = some ⟨1, 5, 5⟩ ∧
    (pair (one ⟨2, 1, 3⟩) (one ⟨1, 5, 2⟩)).joined? = some ⟨2, 1, 5⟩ := by decide

end Grouping

end Span

end StackLowering
