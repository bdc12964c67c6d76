import StackLowering.Proofs.Evaluation

/-!
Simulation of statements. The code of clean statements takes the machine from its first line to the
line behind it, with an empty operand stack at both, and changes the variables and the output as the
statements do. Where the statements trap, the machine traps, and where a loop has used up its
rounds, the machine has taken at least as many steps and runs still.
-/
namespace StackLowering

open Machine

variable {V α : Type} {I : Interpretation V} {ls : Listing} {scope : Scope}

/-- Lines that do nothing. -/
def Line.Idle : Line → Prop
  | instruction _ _ | branch _ _ => False
  | _ => True

/-- Branches to a label go to any line that defines it. -/
def Listing.Locates (ls : Listing) : Prop :=
  ∀ (i : Nat) (l : Label), ls[i]? = some (.label l) → ls.idxOf? (.label l) = some i

namespace Machine

/-- From a configuration the machine does what an outcome says: it comes to the exit, it traps, or
it takes at least `n` steps. -/
def Tracks (I : Interpretation V) (ls : Listing) (scope : Scope) (n : Nat) (c : Config V)
    (exit : Nat) : Outcome (State V) → Prop
  | .done s => ∃ k d, run I ls k c = .running d ∧ d.pc = exit ∧ d.stack = [] ∧ scope.observe d = s
  | .trapped s => ∃ k d, run I ls k c = .trapped d ∧ scope.observe d = s
  | .running s => ∃ k d, run I ls k c = .running d ∧ n ≤ k ∧ scope.observe d = s
  | .stuck _ => False

namespace Tracks

variable {m n mid exit : Nat} {c d : Config V} {o : Outcome (State V)}

theorem here (hpc : c.pc = exit) (hstack : c.stack = []) :
    Tracks I ls scope n c exit (.done (scope.observe c)) := ⟨0, c, rfl, hpc, hstack, rfl⟩

theorem mono (hmn : m ≤ n) (h : Tracks I ls scope n c exit o) : Tracks I ls scope m c exit o := by
  cases o with
  | running s =>
    obtain ⟨k, d, hr, hk, hs⟩ := h
    exact ⟨k, d, hr, Nat.le_trans hmn hk, hs⟩
  | _ => exact h

/-- Go on from where a run has come to. -/
theorem after (h : run I ls m c = .running d) (hd : Tracks I ls scope n d exit o) :
    Tracks I ls scope (m + n) c exit o := by
  cases o with
  | done s =>
    obtain ⟨k, e, hr, hpc, hstack, hs⟩ := hd
    exact ⟨m + k, e, (run_of_running h).trans hr, hpc, hstack, hs⟩
  | trapped s =>
    obtain ⟨k, e, hr, hs⟩ := hd
    exact ⟨m + k, e, (run_of_running h).trans hr, hs⟩
  | running s =>
    obtain ⟨k, e, hr, hk, hs⟩ := hd
    exact ⟨m + k, e, (run_of_running h).trans hr, Nat.add_le_add_left hk m, hs⟩
  | stuck s => exact hd

theorem andThen {f : State V → Outcome (State V)} (h : Tracks I ls scope n c mid o)
    (hf : ∀ d : Config V, d.pc = mid → d.stack = [] →
      Tracks I ls scope n d exit (f (scope.observe d))) :
    Tracks I ls scope n c exit (o.andThen f) := by
  cases o with
  | done s =>
    obtain ⟨k, d, hr, hpc, hstack, rfl⟩ := h
    exact (after hr (hf d hpc hstack)).mono (Nat.le_add_left n k)
  | _ => exact h

/-- Lines behind the code of a statement that nothing is seen of. -/
theorem leave (h : Tracks I ls scope n c mid o)
    (hd : ∀ d : Config V, d.pc = mid → d.stack = [] →
      Tracks I ls scope n d exit (.done (scope.observe d))) : Tracks I ls scope n c exit o := by
  have hthen := h.andThen hd
  cases o <;> exact hthen

/-- Go on with a result that the machine has computed. -/
theorem proceed {result : Except Failure α} {fits : α → Config V → Prop}
    {f : α → Outcome (State V)} (h : Yields I ls c result fits)
    (hf : ∀ a d, fits a d → Quiet c d → Tracks I ls scope n d exit (f a)) :
    Tracks I ls scope n c exit (.proceed (scope.observe c) result f) := by
  match result, h with
  | .ok a, h =>
    obtain ⟨k, d, hr, hq, ha⟩ := h
    exact (after hr (hf a d ha hq)).mono (Nat.le_add_left n k)
  | .error .trapped, h =>
    obtain ⟨k, d, hr, hq⟩ := h
    exact ⟨k, d, hr, hq.observe_eq⟩

/-- A line that the machine goes through. -/
theorem advance {line : Line} (hl : ls[c.pc]? = some line)
    (he : execute I ls c line = .running d) (hd : Tracks I ls scope n d exit o) :
    Tracks I ls scope (n + 1) c exit o := by
  rw [Nat.add_comm]
  exact after ((run_one c).trans ((step_of_getElem? hl).trans he)) hd

theorem idle {code : List Line} {j : Nat} (hs : ls.Spans c.pc code j)
    (h : ∀ line ∈ code, line.Idle) (hd : Tracks I ls scope n { c with pc := j } exit o) :
    Tracks I ls scope n c exit o := by
  induction code generalizing c with
  | nil =>
    cases hs
    exact hd
  | cons line code ih =>
    obtain ⟨hl, hs⟩ := hs
    have he : execute I ls c line = .running (c.next c.stack) := by
      cases line with
      | instruction op operand => exact (h _ List.mem_cons_self).elim
      | branch op l => exact (h _ List.mem_cons_self).elim
      | _ => rfl
    have hrest := ih (c := c.next c.stack) hs (fun l hm => h l (List.mem_cons_of_mem line hm)) hd
    exact (advance hl he hrest).mono (Nat.le_succ n)

theorem label {l : Label} (hl : ls[c.pc]? = some (.label l))
    (hd : Tracks I ls scope n { c with pc := c.pc + 1 } exit o) : Tracks I ls scope n c exit o :=
  (advance (d := c.next c.stack) hl rfl hd).mono (Nat.le_succ n)

theorem goto {l : Label} {i : Nat} (hl : ls[c.pc]? = some (.branch .goto l))
    (hi : ls.idxOf? (.label l) = some i) (hd : Tracks I ls scope n { c with pc := i } exit o) :
    Tracks I ls scope n c exit o := by
  have he : execute I ls c (.branch .goto l) = .running { c with pc := i } := by
    simp [execute, branch, jump, hi, Config.require]
  exact (advance hl he hd).mono (Nat.le_succ n)

end Tracks

end Machine

theorem Scope.annotationLines_idle {cursor : Cursor} {span : Span} {line : Line}
    (h : line ∈ scope.annotationLines cursor span) : line.Idle := by
  obtain ⟨hstill, -, htarget⟩ := annotationLines_still h
  cases hstill with
  | goto l => exact nomatch htarget
  | _ => trivial

/-- A store into the field of a variable is an assignment to the variable. -/
theorem Scope.observe_store (scope : Scope) (c : Config V) (name : String) (v : V) (pc : Nat)
    (stack : List V) :
    scope.observe ⟨pc, stack, Function.update c.statics (scope.slot name) v, c.heap, c.trace⟩ =
      { scope.observe c with store := Function.update (scope.observe c).store name v } := by
  have h := Function.update_comp_eq_of_injective c.statics scope.slot_injective name v
  exact congrArg (State.mk · c.trace) h

theorem assign_tracks {target : Variable} {value : Expr} (hv : value.Clean scope)
    (ht : scope.Holds target) {n j : Nat} {c : Config V} (hstack : c.stack = [])
    (hs : ls.Spans c.pc
      (value.code scope ++ [.instruction .putStatic (some (scope.fieldFor target).text)]) j) :
    Tracks I ls scope n c j (.proceed (scope.observe c) (value.eval I (scope.observe c).store)
      fun v => .done { scope.observe c with
        store := Function.update (scope.observe c).store target.name v }) := by
  rw [Scope.text_fieldFor ht] at hs
  obtain ⟨i, hvalue, hstore, rfl⟩ := Listing.Spans.append_iff.mp hs
  refine .proceed (Expr.eval_yields hv hvalue) ?_
  rintro v d rfl -
  rw [← scope.observe_store c target.name v (i + 1) c.stack]
  exact .mono (Nat.le_succ n) (.advance hstore rfl (.here rfl hstack))

namespace Machine

theorem execute_newArray {c : Config V} {n : Nat} {className : String} {stack : List V}
    (h : c.stack = I.constant (toString n) :: stack) :
    execute I ls c (.instruction .anewarray (some className)) =
      .running (c.allocate I (List.replicate n I.null) stack) := by
  simp only [execute, operate, h, I.int?_constant, Config.require]
  rw [if_pos (Int.natCast_nonneg n), Int.toNat_natCast]

theorem execute_printf {c : Config V} {text : String} {a : Nat} {out : V}
    {contents stack : List V}
    (h : c.stack = I.reference a :: I.constant s!"\"{text}\"" :: out :: stack)
    (hheap : c.heap[a]? = some contents) :
    execute I ls c (.instruction .invokeVirtual (some Library.printf)) =
      .running { c.next (out :: stack) with trace := c.trace ++ [(text, contents)] } := by
  have hne : Library.printf ≠ Library.printElapsedTime := by decide
  have htext := I.text?_constant text
  simp only [execute, h, operate, invoke, if_neg hne, if_true, print, I.address?_reference, hheap,
    htext, Config.require]

end Machine

theorem print_tracks {text : String} {args : List Expr}
    (h : ∀ arg ∈ args, arg.Clean scope ∧ arg.tag.isNumeric = true) {n j : Nat} {c : Config V}
    (hstack : c.stack = []) (hs : ls.Spans c.pc (printCode scope text args) j) :
    Tracks I ls scope n c j (.proceed (scope.observe c)
      (Expr.evalArguments I (scope.observe c).store args)
      fun vs => .done { scope.observe c with trace := c.trace ++ [(text, vs)] }) := by
  obtain ⟨k, hfill, hprint, hpop, rfl⟩ := Listing.Spans.append_iff.mp hs
  obtain ⟨i, ⟨hout, htext, hsize, harray, rfl⟩, hargs⟩ := Listing.Spans.append_iff.mp hfill
  refine .mono (Nat.le_add_right n 4) (.advance hout rfl (.advance htext rfl (.advance hsize rfl
    (.advance harray (execute_newArray rfl) ?_))))
  have hheap : (c.heap ++ [List.replicate args.length I.null])[c.heap.length]? =
      some ([] ++ List.replicate args.length I.null) := by simp
  refine .proceed (Expr.evalArguments_yields h rfl hheap hargs) ?_
  rintro vs d ⟨rfl, hkeep, hfilled⟩ hquiet
  refine .mono (Nat.le_add_right n 2) (.advance hprint (execute_printf hkeep hfilled)
    (.advance hpop rfl ?_))
  refine ⟨0, _, rfl, rfl, hstack, ?_⟩
  change State.mk (fun name => d.statics (scope.slot name)) (d.trace ++ [(text, [] ++ vs)]) = _
  rw [hquiet.statics, hquiet.trace]
  rfl

/-- Rounds of a loop whose label stands at its top. -/
theorem iterate_tracks {body : State V → Outcome (State V)} {cond : State V → Except Failure Bool}
    {rounds top mid exit n : Nat} {l : Label} (hlabel : ls[top]? = some (.label l))
    (hbody : ∀ c : Config V, c.pc = top + 1 → c.stack = [] →
      Tracks I ls scope rounds c mid (body (scope.observe c)))
    (hcond : ∀ c : Config V, c.pc = mid → Yields I ls c (cond (scope.observe c)) fun b d =>
      d = { c with pc := if b then top else exit })
    (hn : n ≤ rounds) {c : Config V} (hpc : c.pc = top) (hstack : c.stack = []) :
    Tracks I ls scope n c exit (iterate body cond n (scope.observe c)) := by
  induction n generalizing c with
  | zero => exact ⟨0, c, rfl, Nat.le_refl 0, rfl⟩
  | succ n ih =>
    subst hpc
    -- The line with the label is the step that this round takes at least.
    refine .advance (d := c.next c.stack) hlabel rfl ?_
    refine .andThen ((hbody (c.next c.stack) rfl hstack).mono (by omega)) ?_
    intro d hd hempty
    refine .proceed (hcond d hd) ?_
    rintro again e rfl -
    cases again with
    | true => exact ih (by omega) rfl hempty
    | false => exact .here rfl hempty

mutual

theorem Stmt.exec_tracks (hls : ls.Locates) (rounds : Nat) (cursor : Cursor) (s : Stmt)
    (h : s.Every (cleanParts scope)) {c : Config V} {j : Nat} (hstack : c.stack = [])
    (hs : ls.Spans c.pc (s.code scope cursor) j) :
    Tracks I ls scope rounds c j (s.exec I rounds (scope.observe c)) := by
  cases s with
  | assign target value span =>
    obtain ⟨hv, ht, -⟩ := h
    exact assign_tracks hv ht hstack hs
  | block body span => exact execAll_tracks hls rounds cursor body h hstack hs
  | ifThen cond body span =>
    obtain ⟨hcond, hbody⟩ := h
    obtain ⟨join, hs₁, hjoin, rfl⟩ := Listing.Spans.append_iff.mp hs
    obtain ⟨k, hs₂, hthen⟩ := Listing.Spans.append_iff.mp hs₁
    obtain ⟨i, hs₃, hgoto, htrue, rfl⟩ := Listing.Spans.append_iff.mp hs₂
    obtain ⟨hentry, htest⟩ := hs₃
    refine .label hentry (.proceed (Expr.holds_yields hcond (hls _ _ htrue) htest) ?_)
    rintro b d rfl -
    cases b with
    | true =>
      refine .label htrue (.leave (execAll_tracks hls rounds _ body hbody hstack hthen) ?_)
      rintro d rfl hempty
      exact .label hjoin (.here rfl hempty)
    | false => exact .goto hgoto (hls _ _ hjoin) (.label hjoin (.here rfl hstack))
  | ifElse cond body alternative span =>
    obtain ⟨hcond, halt, hbody⟩ := h
    obtain ⟨k, hs₁, hleave, hjoin, rfl⟩ := Listing.Spans.append_iff.mp hs
    obtain ⟨i, hs₂, hthen⟩ := Listing.Spans.append_iff.mp hs₁
    obtain ⟨m, hs₃, hgoto, htrue, rfl⟩ := Listing.Spans.append_iff.mp hs₂
    obtain ⟨e, hs₄, helse⟩ := Listing.Spans.append_iff.mp hs₃
    obtain ⟨hentry, htest⟩ := hs₄
    refine .label hentry (.proceed (Expr.holds_yields hcond (hls _ _ htrue) htest) ?_)
    rintro b d rfl -
    cases b with
    | true =>
      refine .label htrue (.leave (execAll_tracks hls rounds _ body hbody hstack hthen) ?_)
      rintro d rfl hempty
      exact .goto hleave (hls _ _ hjoin) (.label hjoin (.here rfl hempty))
    | false =>
      refine .leave (execAll_tracks hls rounds _ alternative halt hstack helse) ?_
      rintro d rfl hempty
      exact .goto hgoto (hls _ _ hjoin) (.label hjoin (.here rfl hempty))
  | loop body cond span =>
    obtain ⟨hbody, hcond⟩ := h
    obtain ⟨k, hs₁, htest⟩ := Listing.Spans.append_iff.mp hs
    obtain ⟨htop, hround⟩ := hs₁
    have hbodies : ∀ d : Config V, d.pc = c.pc + 1 → d.stack = [] →
        Tracks I ls scope rounds d k (execAll I rounds body (scope.observe d)) := by
      intro d hd hempty
      exact execAll_tracks hls rounds _ body hbody hempty (hd ▸ hround)
    refine iterate_tracks htop hbodies ?_ (Nat.le_refl rounds) rfl hstack
    rintro d rfl
    exact Expr.holds_yields hcond (hls _ _ htop) htest
  | print format args span =>
    obtain ⟨hf, hargs⟩ := h
    obtain ⟨text, hf⟩ := Option.isSome_iff_exists.mp hf
    simp only [Stmt.code, hf] at hs
    simp only [Stmt.exec, hf]
    exact print_tracks hargs hstack hs

theorem execAll_tracks (hls : ls.Locates) (rounds : Nat) (cursor : Cursor) (ss : List Stmt)
    (h : EveryPart (cleanParts scope) ss) {c : Config V} {j : Nat} (hstack : c.stack = [])
    (hs : ls.Spans c.pc (codeAll scope cursor ss) j) :
    Tracks I ls scope rounds c j (execAll I rounds ss (scope.observe c)) := by
  cases ss with
  | nil => exact .here hs hstack
  | cons s ss =>
    obtain ⟨hfirst, hrest⟩ := h
    obtain ⟨k, hs₁, hsr⟩ := Listing.Spans.append_iff.mp hs
    obtain ⟨i, hsa, hsf⟩ := Listing.Spans.append_iff.mp hs₁
    refine .idle hsa (fun _ hm => Scope.annotationLines_idle hm) ?_
    refine .andThen (s.exec_tracks hls rounds _ hfirst hstack hsf) ?_
    rintro d rfl hempty
    exact execAll_tracks hls rounds _ ss hrest hempty hsr

end

end StackLowering
