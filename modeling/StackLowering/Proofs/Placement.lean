import Mathlib.Data.UInt
import StackLowering.Tree.Sketch

/-!
Placing expressions within bounds. The span of a binary node is joined from those of its operands,
and every sum in a join has to be a word. If no mark of a sketch has a column beyond `m`, the span
of a part with `n` nodes stops at column `n * m` at the latest: lengths add up only where nodes do.
So a sketch is placed whenever its own bound is a word.
-/
namespace StackLowering

namespace Span

/-- The column after the last one, whether or not it is a word. -/
def stop (s : Span) : Nat := s.col.toNat + s.len.toNat

/-- The span `r` is joined from `s` and `t`, and words computed it as numbers would: on one line it
begins with the first of both and stops with the last; otherwise it begins with `s` and has both
lengths. -/
structure ExactJoin (s t r : Span) : Prop where
  joined : s.join? t = some r
  line : r.line = s.line
  hull : s.line = t.line → r.col = min s.col t.col ∧ r.stop = max s.stop t.stop
  chain : s.line ≠ t.line → r.col = s.col ∧ r.len.toNat = s.len.toNat + t.len.toNat

theorem toNat_wordSum {a b : UInt32} (h : a.toNat + b.toNat < UInt32.size) :
    (a + b).toNat = a.toNat + b.toNat := by
  rw [UInt32.toNat_add]
  exact Nat.mod_eq_of_lt h

/-- On one line, spans are joined as soon as both of them stop at a word. -/
theorem exists_exactJoin_of_line_eq {s t : Span} (hline : s.line = t.line)
    (hs : s.stop < UInt32.size) (ht : t.stop < UInt32.size) : ∃ r, s.ExactJoin t r := by
  have hjoin : s.join? t = some ⟨s.line, min s.col t.col,
      max (s.col + s.len) (t.col + t.len) - min s.col t.col⟩ := by
    unfold join? stop?
    rw [if_pos hline, wordSum?_eq_some hs, wordSum?_eq_some ht]
    rfl
  have hstop : (max (s.col + s.len) (t.col + t.len)).toNat = max s.stop t.stop := by
    rw [UInt32.toNat_max, toNat_wordSum hs, toNat_wordSum ht]
    rfl
  -- The difference is one of numbers, because the first column is not after the last one.
  have hle : min s.col t.col ≤ max (s.col + s.len) (t.col + t.len) := by
    rw [UInt32.le_iff_toNat_le, hstop, UInt32.toNat_min]
    unfold stop
    omega
  have hlen := UInt32.toNat_sub_of_le _ _ hle
  rw [UInt32.le_iff_toNat_le, hstop] at hle
  refine ⟨_, hjoin, rfl, fun _ => ⟨rfl, ?_⟩, fun hne => absurd hline hne⟩
  change (min s.col t.col).toNat + (max (s.col + s.len) (t.col + t.len) - min s.col t.col).toNat = _
  rw [hlen, hstop]
  omega

/-- Across lines, spans are joined as soon as their lengths add up to a word. -/
theorem exists_exactJoin_of_line_ne {s t : Span} (hline : s.line ≠ t.line)
    (hlen : s.len.toNat + t.len.toNat < UInt32.size) : ∃ r, s.ExactJoin t r := by
  have hjoin : s.join? t = some ⟨s.line, s.col, s.len + t.len⟩ := by
    unfold join?
    rw [if_neg hline, wordSum?_eq_some hlen]
    rfl
  exact ⟨_, hjoin, rfl, fun heq => absurd heq hline, fun _ => ⟨rfl, toNat_wordSum hlen⟩⟩

/-- Where two spans stop bounds where their join stops. -/
theorem ExactJoin.stop_le {s t r : Span} (h : s.ExactJoin t r) : r.stop ≤ s.stop + t.stop := by
  by_cases hline : s.line = t.line
  · obtain ⟨-, hstop⟩ := h.hull hline
    omega
  · obtain ⟨hcol, hlen⟩ := h.chain hline
    unfold stop
    rw [hcol, hlen]
    omega

/-- Spans are joined whenever their stops add up to a word. -/
theorem exists_exactJoin {s t : Span} (h : s.stop + t.stop < UInt32.size) :
    ∃ r, s.ExactJoin t r := by
  by_cases hline : s.line = t.line
  · exact exists_exactJoin_of_line_eq hline (by omega) (by omega)
  · unfold stop at h
    exact exists_exactJoin_of_line_ne hline (by omega)

end Span

/-- Every binary node stands where its operands are joined, unless nothing is known of the left
one's place. -/
def Expr.ExactlyPlaced : Expr → Prop
  | literal _ _ _ _ | var _ => True
  | binary _ left right _ span =>
    left.ExactlyPlaced ∧ right.ExactlyPlaced ∧
      (left.span.known = true → left.span.ExactJoin right.span span)
  | negate operand _ _ => operand.ExactlyPlaced

namespace Sketch

def Marks.positions (marks : Marks) : List Position := marks.enter.toList ++ marks.leave.toList

namespace Expr

/-- The number of nodes. -/
def size : Expr → Nat
  | literal _ _ _ _ | var _ _ _ => 1
  | binary _ _ left right _ => left.size + right.size + 1
  | negate _ operand _ => operand.size + 1

/-- The positions that the marks of a sketch move to. -/
def positions : Expr → List Position
  | literal marks _ _ _ | var marks _ _ => marks.positions
  | binary marks _ left right _ => marks.positions ++ left.positions ++ right.positions
  | negate marks operand _ => marks.positions ++ operand.positions

end Expr

/-! What the steps of placing do to the current position. -/

theorem run_bind {α β : Type} {x : Placing α} {p q : Position} {a : α} (h : x.run p = some (a, q))
    (f : α → Placing β) : (x >>= f).run p = (f a).run q := by
  rw [StateT.run_bind, h]
  rfl

theorem run_move (mark : Option Position) (p : Position) :
    (move mark).run p = some ((), mark.getD p) := by
  cases mark <;> rfl

theorem run_here (p : Position) : here.run p = some (Span.ofPosition p, p) := rfl

theorem stop_ofPosition (p : Position) : (Span.ofPosition p).stop = p.col.toNat := rfl

/-- A span between operands is joined, or stands at the current position. -/
theorem run_spanBetween {left right : Span} (p : Position)
    (h : left.stop + right.stop < UInt32.size) :
    ∃ span, (spanBetween left right).run p = some (span, p) ∧
      (left.known = true → left.ExactJoin right span) ∧
      span.stop ≤ max (left.stop + right.stop) p.col.toNat := by
  obtain ⟨joined, hjoin⟩ := Span.exists_exactJoin h
  unfold spanBetween
  by_cases hk : left.known = true
  · refine ⟨joined, ?_, fun _ => hjoin, Nat.le_trans hjoin.stop_le (Nat.le_max_left _ _)⟩
    rw [if_pos hk, hjoin.joined]
    rfl
  · refine ⟨Span.ofPosition p, ?_, fun hknown => absurd hknown hk, ?_⟩
    · rw [if_neg hk, run_here]
    · rw [stop_ofPosition]
      exact Nat.le_max_right _ _

/-- Marks within a bound keep the current position within it. -/
theorem Marks.col_le {marks : Marks} {m : Nat} (h : ∀ q ∈ marks.positions, q.col.toNat ≤ m)
    {p : Position} (hp : p.col.toNat ≤ m) :
    (marks.enter.getD p).col.toNat ≤ m ∧ (marks.leave.getD p).col.toNat ≤ m := by
  obtain ⟨henter, hleave⟩ := List.forall_mem_append.mp h
  constructor
  · cases he : marks.enter with
    | none => exact hp
    | some q => exact henter q (by simp [he])
  · cases hl : marks.leave with
    | none => exact hp
    | some q => exact hleave q (by simp [hl])

namespace Expr

/-- Placing keeps the current column within the bound of the marks, and gives a part of `n` nodes a
span that stops within `n` times that bound. -/
theorem exists_run_place {m : Nat} (e : Expr) {p : Position} (hp : p.col.toNat ≤ m)
    (hm : ∀ q ∈ e.positions, q.col.toNat ≤ m) (hfit : e.size * m < UInt32.size) :
    ∃ tree q, e.place.run p = some (tree, q) ∧ q.col.toNat ≤ m ∧ tree.ExactlyPlaced ∧
      tree.span.stop ≤ e.size * m := by
  induction e generalizing p with
  | literal marks kind text tag =>
    obtain ⟨henter, -⟩ := Marks.col_le hm hp
    obtain ⟨-, hleave⟩ := Marks.col_le hm henter
    refine ⟨.literal kind text tag (.ofPosition (marks.leave.getD (marks.enter.getD p))), _, ?_,
      hleave, trivial, ?_⟩
    · rw [place, run_bind (run_move _ _), run_bind (run_move _ _), run_bind (run_here _)]
      rfl
    · rw [size, Nat.one_mul]
      exact hleave
  | var marks name tag =>
    obtain ⟨henter, -⟩ := Marks.col_le hm hp
    obtain ⟨-, hleave⟩ := Marks.col_le hm henter
    refine ⟨.var ⟨name, tag, .ofPosition (marks.leave.getD (marks.enter.getD p))⟩, _, ?_, hleave,
      trivial, ?_⟩
    · rw [place, run_bind (run_move _ _), run_bind (run_move _ _), run_bind (run_here _)]
      rfl
    · rw [size, Nat.one_mul]
      exact hleave
  | binary marks op left right tag ihl ihr =>
    obtain ⟨hfront, hmr⟩ := List.forall_mem_append.mp hm
    obtain ⟨hmarks, hml⟩ := List.forall_mem_append.mp hfront
    rw [size, Nat.add_mul, Nat.add_mul, Nat.one_mul] at hfit ⊢
    obtain ⟨henter, -⟩ := Marks.col_le hmarks hp
    obtain ⟨l, pl, hl, hpl, hel, hsl⟩ := ihl henter hml (by omega)
    obtain ⟨r, pr, hr, hpr, her, hsr⟩ := ihr hpl hmr (by omega)
    obtain ⟨-, hleave⟩ := Marks.col_le hmarks hpr
    -- Each operand keeps to the share of its own nodes, so the shares add up to a word.
    have hstops : l.span.stop + r.span.stop < UInt32.size := by omega
    obtain ⟨span, hspan, hjoin, hstop⟩ := run_spanBetween (marks.leave.getD pr) hstops
    refine ⟨.binary op l r tag span, _, ?_, hleave, ⟨hel, her, hjoin⟩, ?_⟩
    · rw [place, run_bind (run_move _ _), run_bind hl, run_bind hr, run_bind (run_move _ _),
        run_bind hspan]
      rfl
    · change span.stop ≤ _
      omega
  | negate marks operand tag ih =>
    obtain ⟨hmarks, hmo⟩ := List.forall_mem_append.mp hm
    rw [size, Nat.add_mul, Nat.one_mul] at hfit ⊢
    obtain ⟨henter, -⟩ := Marks.col_le hmarks hp
    obtain ⟨tree, q, hrun, hq, hexact, -⟩ := ih henter hmo (by omega)
    obtain ⟨-, hleave⟩ := Marks.col_le hmarks hq
    refine ⟨.negate tree tag (.ofPosition (marks.leave.getD q)), _, ?_, hleave, hexact, ?_⟩
    · rw [place, run_bind (run_move _ _), run_bind hrun, run_bind (run_move _ _),
        run_bind (run_here _)]
      rfl
    · change (marks.leave.getD q).col.toNat ≤ _
      omega

/-- A sketch with no mark beyond column `m` is placed if its number of nodes times `m` is a word:
no join on the way runs over or under a word, and the span of the result stops at that product at
the latest. Marks may stand at every node, so the order in which nodes are made is no
restriction. -/
theorem placing_stays_in_words (e : Expr) (m : Nat) (p : Position) (hp : p.col.toNat ≤ m)
    (hm : ∀ q ∈ e.positions, q.col.toNat ≤ m) (hfit : e.size * m < 2 ^ 32) :
    ∃ tree q, e.place.run p = some (tree, q) ∧ tree.ExactlyPlaced ∧
      tree.span.col.toNat + tree.span.len.toNat ≤ e.size * m := by
  obtain ⟨tree, q, hrun, -, hexact, hstop⟩ := exists_run_place e hp hm hfit
  exact ⟨tree, q, hrun, hexact, hstop⟩

/-- Operands far apart on one line, joined with operands far apart on the next one. -/
def sprawl : Expr :=
  .binary {} (.arithmetic .add)
    (.binary {} (.arithmetic .mul) (.var ⟨none, some ⟨1, 1⟩⟩ "a" .integer)
      (.negate ⟨some ⟨1, 500000000⟩, none⟩ (.var {} "b" .integer) .integer) .integer)
    (.binary {} (.arithmetic .mul) (.var ⟨some ⟨2, 2⟩, none⟩ "c" .integer)
      (.literal ⟨some ⟨2, 7⟩, some ⟨2, 500000000⟩⟩ .int "4" .integer) .integer) .integer

theorem sprawl_stays_in_words :
    ∃ tree q, sprawl.place.run ⟨0, 0⟩ = some (tree, q) ∧ tree.ExactlyPlaced ∧
      tree.span = ⟨1, 1, 999999997⟩ ∧
      tree.span.col.toNat + tree.span.len.toNat ≤ 8 * 500000000 := by
  obtain ⟨tree, q, hrun, hexact, hstop⟩ :=
    placing_stays_in_words sprawl 500000000 ⟨0, 0⟩ (by decide) (by decide) (by decide)
  refine ⟨tree, q, hrun, hexact, ?_, hstop⟩
  cases hrun
  rfl

end Expr

end Sketch

end StackLowering
