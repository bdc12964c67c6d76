import StackLowering.Proofs.Labels
import StackLowering.Proofs.Simulation

/-!
Semantic preservation. Followed for more and more rounds of its loops, a program without warnings
does what the main method of its class does when followed for more and more steps: both end with the
same variables and the same output, both trap with the same variables and the same output, or both
run on for ever and go on to print the same. The machine never finds an operand that it cannot work
with.
-/
namespace StackLowering

open Machine

variable {V : Type} {I : Interpretation V} {ls : Listing} {scope : Scope}

/-- Two computations, each followed further and further, do the same. -/
structure Agree (f g : Nat → Outcome (State V)) : Prop where
  done : ∀ s, (∃ n, f n = .done s) ↔ ∃ n, g n = .done s
  trapped : ∀ s, (∃ n, f n = .trapped s) ↔ ∃ n, g n = .trapped s
  not_stuck : ∀ n s, f n ≠ .stuck s ∧ g n ≠ .stuck s
  diverges : (∀ n, ∃ s, f n = .running s) ↔ ∀ n, ∃ s, g n = .running s
  /-- Whatever one of them has printed at some time, the other one prints too. -/
  output : ∀ out, (∃ n, out <+: (f n).state.trace) ↔ ∃ n, out <+: (g n).state.trace

/-- What one computation does when it is followed for `n` rounds, another one does, and if the first
is running still, the other one has taken `n` steps. -/
structure Reached (n : Nat) (o : Outcome (State V)) (g : Nat → Outcome (State V)) (k : Nat) :
    Prop where
  same : g k = o
  steps : ∀ s, o = .running s → n ≤ k
  not_stuck : ∀ s, o ≠ .stuck s

namespace Agree

variable {f g : Nat → Outcome (State V)} (hsim : ∀ n, ∃ k, Reached n (f n) g k)
  (hhalt : ∀ {m n}, m ≤ n → (∀ s, g m ≠ .running s) → g n = g m)

include hsim hhalt

/-- Where a computation has halted, the one that reaches it has halted likewise. -/
theorem eq_of_halted {k : Nat} (hk : ∀ s, g k ≠ .running s) : f (k + 1) = g k := by
  obtain ⟨m, hm⟩ := hsim (k + 1)
  have hmk : ∀ s, g m ≠ .running s := by
    intro s hs
    have hle := hm.steps s (hm.same.symm.trans hs)
    rw [hhalt (by omega) hk] at hs
    exact hk s hs
  rw [← hm.same]
  rcases Nat.le_total m k with hle | hle
  · exact (hhalt hle hmk).symm
  · exact hhalt hle hk

theorem exists_eq_iff {o : Outcome (State V)} (ho : ∀ s, o ≠ .running s) :
    (∃ n, f n = o) ↔ ∃ n, g n = o := by
  constructor
  · rintro ⟨n, rfl⟩
    obtain ⟨k, hk⟩ := hsim n
    exact ⟨k, hk.same⟩
  · rintro ⟨k, rfl⟩
    exact ⟨k + 1, eq_of_halted hsim hhalt ho⟩

theorem of_simulation (htrace : ∀ {m n}, m ≤ n → (g m).state.trace <+: (g n).state.trace) :
    Agree f g where
  done s := exists_eq_iff hsim hhalt nofun
  trapped s := exists_eq_iff hsim hhalt nofun
  not_stuck n s := by
    have hf : ∀ m, f m ≠ .stuck s := by
      intro m
      obtain ⟨k, hk⟩ := hsim m
      exact hk.not_stuck s
    refine ⟨hf n, fun hn => ?_⟩
    obtain ⟨m, hm⟩ := (exists_eq_iff hsim hhalt (o := .stuck s) nofun).mpr ⟨n, hn⟩
    exact hf m hm
  diverges := by
    constructor
    · intro h n
      obtain ⟨s, hs⟩ := h n
      obtain ⟨k, hk⟩ := hsim n
      by_contra hne
      have hstay := hhalt (hk.steps s hs) fun t ht => hne ⟨t, ht⟩
      exact hne ⟨s, hstay.symm.trans (hk.same.trans hs)⟩
    · intro h n
      obtain ⟨k, hk⟩ := hsim n
      obtain ⟨s, hs⟩ := h k
      exact ⟨s, hk.same.symm.trans hs⟩
  output out := by
    constructor
    · rintro ⟨n, hn⟩
      obtain ⟨k, hk⟩ := hsim n
      exact ⟨k, hk.same ▸ hn⟩
    · rintro ⟨n, hn⟩
      obtain ⟨k, hk⟩ := hsim n
      refine ⟨n, hn.trans ?_⟩
      rw [← hk.same]
      rcases Nat.lt_or_ge k n with hlt | hle
      · -- After fewer than `n` steps the computation is running no more.
        have hend : g n = g k := hhalt (Nat.le_of_lt hlt) fun s hs =>
          absurd (hk.steps s (hk.same.symm.trans hs)) (by omega)
        exact ⟨[], by rw [hend, List.append_nil]⟩
      · exact htrace hle

end Agree

namespace Scope

/-- The fields of the supporting objects are not those of variables. -/
theorem slot_ne (scope : Scope) (name : String) (s : Library.Support) :
    scope.slot name ≠ (scope.field s.field s.descriptor).text := by
  obtain ⟨d, hd, htext⟩ := scope.slot_eq name
  have hsupport : (scope.field s.field s.descriptor).text.toList =
      (scope.className ++ "/" ++ s.field ++ " L" ++ s.className).toList ++ [';'] := by
    change (scope.className ++ "/" ++ s.field ++ " " ++ ("L" ++ s.className ++ ";")).toList = _
    simp
  intro h
  have hlist := htext.symm.trans ((congrArg String.toList h).trans hsupport)
  obtain ⟨-, hlast⟩ := List.append_inj' hlist rfl
  exact hd (List.singleton_inj.mp hlast)

theorem observe_update {field : String} (h : ∀ name, scope.slot name ≠ field) (c : Config V) (v : V)
    (pc : Nat) (stack : List V) (heap : List (List V)) :
    scope.observe ⟨pc, stack, Function.update c.statics field v, heap, c.trace⟩ =
      scope.observe c := by
  have hstore : (fun name => Function.update c.statics field v (scope.slot name)) =
      fun name => c.statics (scope.slot name) := by
    funext name
    exact Function.update_of_ne (h name) v c.statics
  exact congrArg (State.mk · c.trace) hstore

end Scope

/-- Making a supporting object is not seen. -/
theorem supportCode_tracks {s : Library.Support} (h : s ∈ Library.supports) {n j : Nat}
    {c : Config V} (hstack : c.stack = []) (hs : ls.Spans c.pc (scope.supportCode s) j) :
    Tracks I ls scope n c j (.done (scope.observe c)) := by
  obtain ⟨hnew, hdup, hinit, hstore, rfl⟩ := hs
  have hmem : Descriptor.constructor s.className ∈
      Library.supports.map fun s => Descriptor.constructor s.className :=
    List.mem_map_of_mem h
  have hinvoke (d : Config V) (v : V) (stack : List V) (hd : d.stack = v :: stack) :
      execute I ls d (.instruction .invokeNonVirtual (some (Descriptor.constructor s.className))) =
        .running (d.next stack) := by
    simp only [execute, hd, operate, invoke, if_pos hmem]
  refine .mono (Nat.le_add_right n 4) (.advance hnew rfl (.advance hdup rfl
    (.advance hinit (hinvoke _ _ _ rfl) (.advance hstore rfl ?_))))
  exact ⟨0, _, rfl, rfl, hstack, Scope.observe_update (scope.slot_ne · s) c _ _ _ _⟩

theorem supportsCode_tracks {ss : List Library.Support} (h : ∀ s ∈ ss, s ∈ Library.supports)
    {n j : Nat} {c : Config V} (hstack : c.stack = [])
    (hs : ls.Spans c.pc (ss.flatMap scope.supportCode) j) :
    Tracks I ls scope n c j (.done (scope.observe c)) := by
  induction ss generalizing c with
  | nil => exact .here hs hstack
  | cons s ss ih =>
    rw [List.flatMap_cons] at hs
    obtain ⟨i, hfirst, hrest⟩ := Listing.Spans.append_iff.mp hs
    refine .leave (supportCode_tracks (h s List.mem_cons_self) hstack hfirst) ?_
    rintro d rfl hempty
    exact ih (fun s hm => h s (List.mem_cons_of_mem _ hm)) hempty hrest

/-- The end of the main method. -/
theorem Scope.epilogueCode_done {c : Config V} {j : Nat} (hstack : c.stack = [])
    (hs : ls.Spans c.pc scope.epilogueCode j) :
    ∃ k d, run I ls k c = .done d ∧ scope.observe d = scope.observe c := by
  obtain ⟨hblank, hload, hreport, hskip, hreturn, rfl⟩ := hs
  have hend : Tracks I ls scope 0 c (c.pc + 4) (.done (scope.observe c)) := by
    refine .mono (Nat.zero_le 4) (.advance hblank rfl (.advance hload rfl
      (.advance hreport rfl (.advance hskip rfl ?_))))
    exact ⟨0, _, rfl, rfl, hstack, rfl⟩
  obtain ⟨k, d, hr, hpc, -, hseen⟩ := hend
  refine ⟨k + 1, d, ?_, hseen⟩
  rw [run_of_running hr, run_one, step_of_getElem? (hpc ▸ hreturn)]
  rfl

/-- A listing that defines no label twice leads every branch to the one line that defines its
label. -/
theorem Listing.locates_of_count (h : ∀ l, (definedLabels ls).count l ≤ 1) : ls.Locates := by
  intro i l hi
  obtain ⟨hlt, hget⟩ := List.getElem?_eq_some_iff.mp hi
  have hsplit : ls = ls.take i ++ .label l :: ls.drop (i + 1) := by
    rw [← hget, ← List.drop_eq_getElem_cons hlt, List.take_append_drop]
  have hfront : .label l ∉ ls.take i := by
    intro hm
    have hmem : l ∈ definedLabels (ls.take i) := List.mem_filterMap.mpr ⟨.label l, hm, rfl⟩
    have hcount := h l
    rw [hsplit, definedLabels_append, List.count_append] at hcount
    have hpos := List.count_pos_iff.mpr hmem
    have hhere : (definedLabels (.label l :: ls.drop (i + 1))).count l ≠ 0 := by
      simp [definedLabels]
    omega
  refine List.idxOf?_eq_some_iff.mpr ⟨hlt, hget, fun j hj hl => hfront ?_⟩
  exact List.mem_take_iff_getElem.mpr ⟨j, by omega, hl⟩

namespace Program

theorem locates_listing {p : Program} {options : Options} {u : ClassUnit}
    (h : p.unit options = .ok u) : u.listing.Locates := by
  obtain ⟨before, after, hls, hb, ha⟩ := listing_body h
  refine Listing.locates_of_count fun l => ?_
  rw [hls, Listing.definedLabels_append, Listing.definedLabels_append, hb.defined, ha.defined,
    List.nil_append, List.append_nil, count_definedLabels_codeAll, Label.countIn]
  split <;> omega

/-- What the body of a program does, with a bound on the rounds of each loop. -/
def meaning (p : Program) (options : Options) (I : Interpretation V) (statics : String → V)
    (rounds : Nat) : Outcome (State V) :=
  execAll I rounds p.body ⟨fun name => statics ((p.scope options).slot name), []⟩

/-- What is seen of the main method after a number of steps. -/
def execution (p : Program) (options : Options) (ls : Listing) (I : Interpretation V)
    (statics : String → V) (steps : Nat) : Outcome (State V) :=
  (run I ls steps (start ls statics)).map (p.scope options).observe

theorem mainCode_tracks {p : Program} {options : Options} {u : ClassUnit}
    (h : p.unit options = .ok u) (hw : u.warnings = []) (statics : String → V) (n : Nat) :
    ∃ exit j, Tracks I u.listing (p.scope options) n (start u.listing statics) exit
        (p.meaning options I statics n) ∧
      u.listing.Spans exit (p.scope options).epilogueCode j := by
  have hspan := Listing.Spans.of_append (p.opening options) (.blank :: p.mainCode options)
    (closing options (p.stackLimit options))
  rw [← listing_eq h, ← mainEntry_listing h] at hspan
  obtain ⟨hblank, hmain⟩ := hspan
  obtain ⟨exit, hrun, hend⟩ := Listing.Spans.append_iff.mp hmain
  obtain ⟨i, hsupports, hbody⟩ := Listing.Spans.append_iff.mp hrun
  refine ⟨exit, _, ?_, hend⟩
  refine .mono (Nat.le_succ n) (.advance hblank rfl ?_)
  refine Tracks.andThen (f := execAll I n p.body)
    (supportsCode_tracks (fun _ hm => hm) rfl hsupports) ?_
  rintro d rfl hempty
  exact execAll_tracks (locates_listing h) n _ p.body (everyPart_clean h hw) hempty hbody

theorem execution_reaches {p : Program} {options : Options} {u : ClassUnit}
    (h : p.unit options = .ok u) (hw : u.warnings = []) (statics : String → V) (n : Nat) :
    ∃ k, Reached n (p.meaning options I statics n) (p.execution options u.listing I statics) k := by
  obtain ⟨exit, j, htracks, hend⟩ := mainCode_tracks h hw statics n
  cases ho : p.meaning options I statics n with
  | done s =>
    rw [ho] at htracks
    obtain ⟨k, d, hr, rfl, hempty, rfl⟩ := htracks
    obtain ⟨m, e, hd, hseen⟩ := Scope.epilogueCode_done hempty hend
    refine ⟨k + m, ?_, nofun, nofun⟩
    rw [execution, run_of_running hr, hd, Outcome.map, hseen]
  | trapped s =>
    rw [ho] at htracks
    obtain ⟨k, d, hr, rfl⟩ := htracks
    refine ⟨k, ?_, nofun, nofun⟩
    rw [execution, hr, Outcome.map]
  | running s =>
    rw [ho] at htracks
    obtain ⟨k, d, hr, hk, rfl⟩ := htracks
    refine ⟨k, ?_, fun _ _ => hk, nofun⟩
    rw [execution, hr, Outcome.map]
  | stuck s =>
    rw [ho] at htracks
    exact htracks.elim

/-- The main method of a class without warnings does what the body of its program does, whatever
the constants and the operations mean and whatever the fields hold at the start. -/
theorem semantic_preservation {p : Program} {options : Options} {u : ClassUnit}
    (h : p.unit options = .ok u) (hw : u.warnings = []) (I : Interpretation V)
    (statics : String → V) :
    Agree (p.meaning options I statics) (p.execution options u.listing I statics) := by
  refine .of_simulation (execution_reaches h hw statics) ?_ ?_
  · intro m n hmn hhalt
    have hstay : ∀ d, run I u.listing m (start u.listing statics) ≠ .running d := by
      intro d hd
      exact hhalt ((p.scope options).observe d) (by rw [execution, hd, Outcome.map])
    rw [execution, execution, run_eq_of_le hstay hmn]
  · intro m n hmn
    rw [execution, execution, Outcome.state_map, Outcome.state_map]
    exact trace_prefix_of_le hmn _

end Program

/-- Constants, integers and references, in a world where no real is a number. -/
inductive Datum where
  | constant (text : String)
  | int (k : Int)
  | nan
  | reference (a : Nat)
  | null
  | boxed (d : Datum)

namespace Datum

/-- A constant is a number if it has only digits. -/
def int? : Datum → Option Int
  | constant text =>
    if text.toList.all Char.isDigit then some (Nat.ofDigitChars 10 text.toList 0 : Nat) else none
  | int k => some k
  | _ => none

/-- The text between the quotes. -/
def text? : Datum → Option String
  | constant text =>
    if text.toList.head? = some '"' then some (String.ofList text.toList.tail.dropLast) else none
  | _ => none

def address? : Datum → Option Nat
  | reference a => some a
  | _ => none

/-- Division by zero traps. -/
def arithmetic (op : Arithmetic) (x y : Int) : Option Int :=
  match op with
  | .add => some (x + y)
  | .sub => some (x - y)
  | .mul => some (x * y)
  | .div => if y = 0 then none else some (x.tdiv y)

theorem int?_toString (n : Nat) : int? (constant (toString n)) = some (n : Int) := by
  have htext : (toString n).toList = Nat.toDigits 10 n := String.toList_ofList
  have hdigits : (Nat.toDigits 10 n).all Char.isDigit = true := by
    apply List.all_eq_true.mpr
    exact fun c hc => Nat.isDigit_of_mem_toDigits (by decide) (by decide) hc
  rw [int?, htext, if_pos hdigits, Nat.ofDigitChars_ten_toDigits]

def interpretation : Interpretation Datum where
  constant
  int
  int?
  text?
  reference
  address?
  null
  arithmetic
    | .int, op, a, b => do return int (← arithmetic op (← a.int?) (← b.int?))
    | .float, _, _, _ => some nan
  negate
    | .int, a => do return int (-(← a.int?))
    | .float, _ => some nan
  box _ a := some (boxed a)
  compareInt a b := do return compare (← a.int?) (← b.int?)
  compareReal _ _ := some none
  int?_int _ _ _ := rfl
  int?_constant := int?_toString
  text?_constant text := by
    change text? (constant ("\"" ++ text ++ "\"")) = some text
    simp [text?]
  address?_reference _ := rfl

end Datum

theorem Program.countdown_semantic_preservation :
    ∃ u, countdown.unit {} = .ok u ∧ u.warnings = [] ∧
      Agree (countdown.meaning {} Datum.interpretation fun _ => .null)
        (countdown.execution {} u.listing Datum.interpretation fun _ => .null) ∧
      (countdown.meaning {} Datum.interpretation (fun _ => .null) 3).done?.map State.trace =
        some [] := by
  obtain ⟨u, hu, hw⟩ := countdown_unit
  exact ⟨u, hu, hw, semantic_preservation hu hw Datum.interpretation _, rfl⟩

end StackLowering
