import StackLowering.Proofs.FlatReader

/-!
Written options. A document with some of the options of a record, each on a line of its own and in
any order, is read as these options over the defaults. A document with any flaw is refused: a key
that is no option's, a key that occurs twice, a value of the wrong type, or a limit that is no word.
This holds for every reader of TOML and for every decoder that treats the entries of a table as
options are declared, so for the flat reader with its own decoder too.
-/
namespace StackLowering

open Toml

namespace OptionKey

/-- The type of an option's values. -/
def kind : OptionKey → ValueKind
  | superClass | extension => .text
  | stackLimit | localsLimit => .integer
  | sourceComments | lineDirectives => .boolean

/-- The value of an option. -/
def value (o : Options) : OptionKey → Plain
  | superClass => .text o.superClass
  | extension => .text o.extension
  | stackLimit => .integer o.stackLimit.toNat
  | localsLimit => .integer o.localsLimit.toNat
  | sourceComments => .boolean o.sourceComments
  | lineDirectives => .boolean o.lineDirectives

theorem kind_value (o : Options) (k : OptionKey) : (k.value o).kind = k.kind := by
  cases k <;> rfl

/-- An option that is an integer is a word. -/
theorem range_of_value {o : Options} {k : OptionKey} {n : Int} (h : k.value o = .integer n) :
    0 ≤ n ∧ n < UInt32.size := by
  have hword (w : UInt32) (hw : (w.toNat : Int) = n) : 0 ≤ n ∧ n < UInt32.size := by
    have := w.toNat_lt_size
    omega
  cases k with
  | stackLimit => exact hword _ (Plain.integer.inj h)
  | localsLimit => exact hword _ (Plain.integer.inj h)
  | _ => cases h

theorem inRange_value (o : Options) (k : OptionKey) : (k.value o).InRange := by
  cases hv : k.value o with
  | integer n =>
    have hn := range_of_value hv
    have hlow : Int64.minValue.toInt ≤ 0 := by decide
    have hhigh : (UInt32.size : Int) ≤ Int64.maxValue.toInt := by decide
    exact ⟨by omega, by omega⟩
  | text s => trivial
  | boolean b => trivial

theorem name_injective {j k : OptionKey} (h : j.name = k.name) : j = k := by
  have hj := ofName?_name j
  rw [h, ofName?_name] at hj
  exact (Option.some.inj hj).symm

theorem eq_name_of_ofName? {name : String} {k : OptionKey} (h : ofName? name = some k) :
    name = k.name := by
  have hname := List.find?_some h
  exact (of_decide_eq_true hname).symm

end OptionKey

namespace Options

/-- A function that makes options of a table as they are declared: every option has a default and
takes values of one type as they are, and there are no other keys. -/
structure Derives {ε : Type} (decode : Table → Except ε Options) : Prop where
  /-- Entries that give options values which these can have are accepted. -/
  accepts {t : Table} (h : ∀ e ∈ t.entries, ∃ (k : OptionKey) (o : Options),
    e = (k.name, .plain (k.value o))) : ∃ r, decode t = .ok r
  /-- A key that is no option's is not accepted. -/
  known {t : Table} {r : Options} (h : decode t = .ok r) {e : String × Value}
    (he : e ∈ t.entries) : ∃ k : OptionKey, e.1 = k.name
  /-- The value of a key is the value of its option. -/
  given {t : Table} {r : Options} (h : decode t = .ok r) {k : OptionKey} {v : Value}
    (he : (k.name, v) ∈ t.entries) : v = .plain (k.value r)
  /-- An option without a key has its default. -/
  missing {t : Table} {r : Options} (h : decode t = .ok r) {k : OptionKey}
    (hk : k.name ∉ t.entries.map Prod.fst) : k.value r = k.value {}

/-- The entries for some of the options. -/
def entries (o : Options) (ks : List OptionKey) : List (String × Plain) :=
  ks.map fun k => (k.name, k.value o)

theorem name_mem_entries {o : Options} {ks : List OptionKey} {k : OptionKey} :
    k.name ∈ (o.entries ks).map Prod.fst ↔ k ∈ ks := by
  rw [entries, List.map_map]
  constructor
  · intro h
    obtain ⟨j, hj, hname⟩ := List.mem_map.mp h
    exact OptionKey.name_injective hname ▸ hj
  · exact fun h => List.mem_map.mpr ⟨k, h, rfl⟩

theorem nodup_entries (o : Options) {ks : List OptionKey} (h : ks.Nodup) :
    ((o.entries ks).map Prod.fst).Nodup := by
  rw [entries, List.map_map]
  exact List.pairwise_map.mpr (h.imp fun hne hname => hne (OptionKey.name_injective hname))

/-- What can be wrong with the entries of a document. -/
inductive Flawed (es : List (String × Item)) : Prop where
  | unknown {e : String × Item} (he : e ∈ es) (h : ∀ k : OptionKey, e.1 ≠ k.name)
  | repeated (h : ¬(es.map Prod.fst).Nodup)
  | kind {k : OptionKey} {item : Item} (he : (k.name, item) ∈ es) (h : item.kind ≠ k.kind)
  | range {k : OptionKey} {n : Int} (he : (k.name, .plain (.integer n)) ∈ es)
      (h : ¬(0 ≤ n ∧ n < UInt32.size))

theorem read_eq_ok_iff {ε : Type} {parse : String → Except ε Table}
    {decode : Table → Except ε Options} {text : String} {r : Options} :
    read parse decode text = .ok r ↔ ∃ t, parse text = .ok t ∧ decode t = .ok r := by
  rw [read]
  constructor
  · intro h
    cases hparse : parse text with
    | error e =>
      rw [hparse] at h
      cases h
    | ok t =>
      rw [hparse] at h
      exact ⟨t, rfl, h⟩
  · rintro ⟨t, hparse, hdecode⟩
    rw [hparse]
    exact hdecode

section

variable {ε : Type} {parse : String → Except ε Table} {decode : Table → Except ε Options}
  (hparse : Reads parse) (hdecode : Derives decode)

include hparse hdecode

theorem read_entries (closed : Bool) (o : Options) {ks : List OptionKey} (hks : ks.Nodup) :
    ∃ r, read parse decode (write closed ((o.entries ks).map plainItem)) = .ok r ∧
      ∀ k, k.value r = if k ∈ ks then k.value o else k.value {} := by
  have htext : (write closed ((o.entries ks).map plainItem)).toList =
      lines closed ((o.entries ks).map plainItem) := String.toList_ofList
  have hspells := htext ▸ spellsLines_lines closed (o.entries ks)
  have hrange (e : String × Plain) (he : e ∈ o.entries ks) : e.2.InRange := by
    obtain ⟨k, -, rfl⟩ := List.mem_map.mp he
    exact k.inRange_value o
  obtain ⟨t, ht⟩ := hparse.accepts hspells (nodup_entries o hks) hrange
  have hperm := hparse.faithful hspells ht
  have hentries (e : String × Value) (he : e ∈ t.entries) :
      ∃ (k : OptionKey) (o : Options), e = (k.name, .plain (k.value o)) := by
    obtain ⟨e, hmem, rfl⟩ := List.mem_map.mp (hperm.mem_iff.mp he)
    obtain ⟨k, -, rfl⟩ := List.mem_map.mp hmem
    exact ⟨k, o, rfl⟩
  have hkeys : (t.entries.map Prod.fst).Perm ((o.entries ks).map Prod.fst) := by
    have hmap := hperm.map Prod.fst
    rwa [List.map_map] at hmap
  obtain ⟨r, hr⟩ := hdecode.accepts hentries
  refine ⟨r, read_eq_ok_iff.mpr ⟨t, ht, hr⟩, fun k => ?_⟩
  split
  · next hk =>
    have hmem : (k.name, .plain (k.value o)) ∈ t.entries := by
      apply hperm.mem_iff.mpr
      exact List.mem_map.mpr ⟨(k.name, k.value o), List.mem_map.mpr ⟨k, hk, rfl⟩, rfl⟩
    exact (Value.plain.inj (hdecode.given hr hmem)).symm
  · next hk =>
    apply hdecode.missing hr
    rwa [hkeys.mem_iff, name_mem_entries]

/-- What is read has no flaw. -/
theorem not_flawed_of_read {closed : Bool} {es : List (String × Item)} {r : Options}
    (h : read parse decode (write closed es) = .ok r) : ¬Flawed es := by
  obtain ⟨t, ht, hr⟩ := read_eq_ok_iff.mp h
  have htext : (write closed es).toList = lines closed es := String.toList_ofList
  obtain ⟨ps, rfl⟩ | ⟨key, o, -, hother⟩ := lines_cases closed es
  · have hperm := hparse.faithful (htext ▸ spellsLines_lines closed ps) ht
    have hmem {e : String × Item} (he : e ∈ ps.map plainItem) :
        ∃ p, e.2 = .plain p ∧ (e.1, Value.plain p) ∈ t.entries := by
      obtain ⟨⟨key, p⟩, hp, rfl⟩ := List.mem_map.mp he
      exact ⟨p, rfl, hperm.mem_iff.mpr (List.mem_map.mpr ⟨(key, p), hp, rfl⟩)⟩
    intro hflawed
    cases hflawed with
    | unknown he hunknown =>
      obtain ⟨p, -, ht⟩ := hmem he
      obtain ⟨k, hk⟩ := hdecode.known hr ht
      exact hunknown k hk
    | repeated hrepeated =>
      have hnodup := (hperm.map Prod.fst).nodup_iff.mp t.nodup
      rw [List.map_map] at hnodup hrepeated
      exact hrepeated hnodup
    | kind he hkind =>
      obtain ⟨p, rfl, ht⟩ := hmem he
      obtain rfl := Value.plain.inj (hdecode.given hr ht)
      exact hkind (OptionKey.kind_value r _)
    | range he hrange =>
      obtain ⟨p, hp, ht⟩ := hmem he
      obtain rfl := Item.plain.inj hp
      exact hrange (OptionKey.range_of_value (Value.plain.inj (hdecode.given hr ht)).symm)
  · -- No option takes a value of another type.
    obtain ⟨v, hv, hkind⟩ := hparse.typed (htext ▸ hother) ht
    obtain ⟨k, rfl⟩ := hdecode.known hr hv
    obtain rfl := hdecode.given hr hv
    exact absurd hkind (o.kind_ne _)

end

/-- Reading options inverts writing them: the chosen options are read back, and the others have
their defaults. A flawed document is refused. -/
theorem reading_inverts_writing {ε : Type} {parse : String → Except ε Table}
    {decode : Table → Except ε Options} (hparse : Reads parse) (hdecode : Derives decode)
    (message : ε → String) (closed : Bool) :
    (∀ (o : Options) (ks : List OptionKey), ks.Nodup →
      ∃ r, fromToml parse decode message (write closed ((o.entries ks).map plainItem)) = .ok r ∧
        ∀ k, k.value r = if k ∈ ks then k.value o else k.value {}) ∧
      ∀ es, Flawed es →
        ∃ m, fromToml parse decode message (write closed es) = .error (.invalidOptions m) := by
  constructor
  · intro o ks hks
    obtain ⟨r, hr, hvalue⟩ := read_entries hparse hdecode closed o hks
    exact ⟨r, by rw [fromToml, hr]; rfl, hvalue⟩
  · intro es hflawed
    cases h : read parse decode (write closed es) with
    | error e => exact ⟨message e, by rw [fromToml, h]; rfl⟩
    | ok r => exact absurd hflawed (not_flawed_of_read hparse hdecode h)

/-! The decoder of tables. -/

/-- Take one option over from other options. -/
def take (o r : Options) : OptionKey → Options
  | .superClass => { r with superClass := o.superClass }
  | .extension => { r with extension := o.extension }
  | .stackLimit => { r with stackLimit := o.stackLimit }
  | .localsLimit => { r with localsLimit := o.localsLimit }
  | .sourceComments => { r with sourceComments := o.sourceComments }
  | .lineDirectives => { r with lineDirectives := o.lineDirectives }

theorem value_take (o r : Options) (j k : OptionKey) :
    j.value (o.take r k) = if j = k then j.value o else j.value r := by
  cases j <;> cases k <;> rfl

theorem limit_toNat (k : OptionKey) (w : UInt32) : k.limit w.toNat = .ok w := by
  have hw := w.toNat_lt_size
  rw [OptionKey.limit, if_pos (by omega)]
  simp

theorem set_value (o r : Options) (k : OptionKey) :
    OptionKey.set r k (.plain (k.value o)) = .ok (o.take r k) := by
  cases k with
  | stackLimit => rw [OptionKey.value, OptionKey.set, limit_toNat]; rfl
  | localsLimit => rw [OptionKey.value, OptionKey.set, limit_toNat]; rfl
  | _ => rfl

theorem exists_of_limit {k : OptionKey} {n : Int} {f : UInt32 → Options} {r : Options}
    (h : (do let w ← k.limit n; return f w) = Except.ok r) :
    ∃ w : UInt32, n = w.toNat ∧ r = f w := by
  unfold OptionKey.limit at h
  split at h
  · next hn =>
    cases h
    refine ⟨_, ?_, rfl⟩
    rw [UInt32.toNat_ofNat_of_lt' (by omega)]
    omega
  · cases h

/-- Only a value that an option can have is set. -/
theorem exists_of_set {r s : Options} {k : OptionKey} {v : Value}
    (h : OptionKey.set r k v = .ok s) : ∃ o : Options, v = .plain (k.value o) ∧ s = o.take r k := by
  unfold OptionKey.set at h
  split at h
  · cases h
    exact ⟨{ superClass := _ }, rfl, rfl⟩
  · cases h
    exact ⟨{ extension := _ }, rfl, rfl⟩
  · obtain ⟨w, rfl, rfl⟩ := exists_of_limit h
    exact ⟨{ stackLimit := w }, rfl, rfl⟩
  · obtain ⟨w, rfl, rfl⟩ := exists_of_limit h
    exact ⟨{ localsLimit := w }, rfl, rfl⟩
  · cases h
    exact ⟨{ sourceComments := _ }, rfl, rfl⟩
  · cases h
    exact ⟨{ lineDirectives := _ }, rfl, rfl⟩
  · cases h

theorem setEntry_value (o r : Options) (k : OptionKey) :
    r.setEntry (k.name, .plain (k.value o)) = .ok (o.take r k) := by
  simp only [setEntry, OptionKey.ofName?_name, set_value]

theorem exists_of_setEntry {r s : Options} {e : String × Value} (h : r.setEntry e = .ok s) :
    ∃ (k : OptionKey) (o : Options), e = (k.name, .plain (k.value o)) ∧ s = o.take r k := by
  unfold setEntry at h
  split at h
  · cases h
  · next k hk =>
    obtain ⟨o, hv, hs⟩ := exists_of_set h
    exact ⟨k, o, Prod.ext (OptionKey.eq_name_of_ofName? hk) hv, hs⟩

theorem exists_foldlM_setEntry {es : List (String × Value)} (o : Options)
    (h : ∀ e ∈ es, ∃ (k : OptionKey) (o : Options), e = (k.name, .plain (k.value o))) :
    ∃ r, es.foldlM setEntry o = .ok r := by
  induction es generalizing o with
  | nil => exact ⟨o, rfl⟩
  | cons e es ih =>
    obtain ⟨⟨k, q, rfl⟩, hes⟩ := List.forall_mem_cons.mp h
    rw [List.foldlM_cons, setEntry_value]
    exact ih (q.take o k) hes

/-- Entries with different keys give their options the values that these end up with, and leave the
other options alone. -/
theorem of_foldlM_setEntry {es : List (String × Value)} {o r : Options}
    (hes : (es.map Prod.fst).Nodup) (h : es.foldlM setEntry o = .ok r) :
    (∀ e ∈ es, ∃ k : OptionKey, e = (k.name, .plain (k.value r))) ∧
      ∀ k : OptionKey, k.name ∉ es.map Prod.fst → k.value r = k.value o := by
  induction es generalizing o with
  | nil =>
    cases h
    exact ⟨nofun, fun k _ => rfl⟩
  | cons e es ih =>
    rw [List.foldlM_cons] at h
    cases hset : o.setEntry e with
    | error err =>
      rw [hset] at h
      cases h
    | ok o' =>
      obtain ⟨k, q, rfl, rfl⟩ := exists_of_setEntry hset
      rw [hset] at h
      obtain ⟨hk, hes⟩ := List.nodup_cons.mp hes
      obtain ⟨hgiven, hmissing⟩ := ih hes h
      have hvalue : k.value r = k.value q := by
        rw [hmissing k hk, value_take, if_pos rfl]
      constructor
      · rw [List.forall_mem_cons]
        exact ⟨⟨k, by rw [hvalue]⟩, hgiven⟩
      · intro j hj
        rw [List.map_cons, List.mem_cons, not_or] at hj
        have hne : j ≠ k := fun hjk => hj.1 (congrArg OptionKey.name hjk)
        rw [hmissing j hj.2, value_take, if_neg hne]

/-- The decoder makes options as they are declared. -/
theorem derives_ofTable : Derives ofTable where
  accepts h := exists_foldlM_setEntry {} h
  known {t _} h {e} he := by
    obtain ⟨k, rfl⟩ := (of_foldlM_setEntry t.nodup h).1 e he
    exact ⟨k, rfl⟩
  given {t _} h {k v} he := by
    obtain ⟨j, hj⟩ := (of_foldlM_setEntry t.nodup h).1 _ he
    obtain ⟨hname, rfl⟩ := Prod.mk.inj hj
    rw [OptionKey.name_injective hname]
  missing {t _} h {k} hk := (of_foldlM_setEntry t.nodup h).2 k hk

/-- Options with the same values are the same. -/
theorem eq_of_value_eq {o r : Options} (h : ∀ k : OptionKey, k.value o = k.value r) : o = r := by
  have hsuper : o.superClass = r.superClass := Plain.text.inj (h .superClass)
  have hextension : o.extension = r.extension := Plain.text.inj (h .extension)
  have hstack : (o.stackLimit.toNat : Int) = r.stackLimit.toNat := Plain.integer.inj (h .stackLimit)
  have hlocals : (o.localsLimit.toNat : Int) = r.localsLimit.toNat :=
    Plain.integer.inj (h .localsLimit)
  have hcomments : o.sourceComments = r.sourceComments := Plain.boolean.inj (h .sourceComments)
  have hdirectives : o.lineDirectives = r.lineDirectives := Plain.boolean.inj (h .lineDirectives)
  rw [Int.ofNat_inj, UInt32.toNat_inj] at hstack hlocals
  cases o
  cases r
  simp_all

/-- Texts that need escapes, the empty text and a limit at its bound. -/
def tangled : Options where
  superClass := "a\"b\\c\n\r\n\t\x00\x7F'é𝄞"
  extension := ""
  stackLimit := 4294967295
  lineDirectives := true

theorem tangled_reading_inverts_writing :
    fromFlatToml (write false ((tangled.entries
        [.lineDirectives, .superClass, .stackLimit, .extension]).map plainItem)) = .ok tangled ∧
      (∃ m, fromFlatToml (write true [("extension", .plain (.text "j")),
        ("ext ension", .plain (.text "k"))]) = .error (.invalidOptions m)) ∧
      (∃ m, fromFlatToml (write true [("extension", .plain (.text "j")),
        ("extension", .plain (.text "k"))]) = .error (.invalidOptions m)) ∧
      (∃ m, fromFlatToml (write true [("extension", .plain (.text "j")),
        ("main_stack_limit", .other ⟨[], "1979".toList, '-', "05-27".toList, by decide, rfl,
          by decide⟩)]) = .error (.invalidOptions m)) ∧
      ∃ m, fromFlatToml (write true [("extension", .plain (.text "j")),
        ("main_stack_limit", .plain (.integer 4294967296))]) = .error (.invalidOptions m) := by
  have hread (closed : Bool) :=
    reading_inverts_writing reads_flatTable derives_ofTable OptionsError.message closed
  refine ⟨?_, ?_, ?_, ?_, ?_⟩
  · obtain ⟨r, hr, hvalue⟩ := (hread false).1 tangled
      [.lineDirectives, .superClass, .stackLimit, .extension] (by decide)
    have hsame : r = tangled := by
      apply eq_of_value_eq
      intro k
      rw [hvalue k]
      cases k with
      | localsLimit | sourceComments => rfl
      | _ => rw [if_pos (by decide)]
    rw [fromFlatToml, hr, hsame]
  · have hunknown (k : OptionKey) : "ext ension" ≠ k.name := by cases k <;> decide
    exact (hread true).2 _ (.unknown (List.mem_cons_of_mem _ List.mem_cons_self) hunknown)
  · exact (hread true).2 _ (.repeated (by decide))
  · exact (hread true).2 _
      (.kind (k := .stackLimit) (List.mem_cons_of_mem _ List.mem_cons_self) (by decide))
  · exact (hread true).2 _
      (.range (k := .stackLimit) (List.mem_cons_of_mem _ List.mem_cons_self) (by decide))

end Options

end StackLowering
