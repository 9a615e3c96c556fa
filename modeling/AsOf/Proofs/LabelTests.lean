import AsOf.Proofs.Texts

/-!
# What the tests on labels answer

Each test on a grid of labels is true where a label is present and has a property. All tests but
one ask it of every entry of the dictionary and look the answers up by code. `eqLabel` looks
its label up and compares codes, and finds one entry only, the last that is the label. So it
misses the cells of an earlier entry with the same text, and is a test on the labels where no
text stands in the dictionary twice. Only a dictionary that is given with its codes can have
one twice.

* `codeOf?_eq_some`: the entry that looking a text up finds.
* `Reached.answers`: what the tests answer over any dictionary.
* `Unrepeated.nodup`: no way of making or changing a grid repeats a text by itself.
* `eqLabel_marks_iff`: when a test that compares codes is one on labels.
* `tests_read_labels`: all tests, and the tests of grids that compare equal.
-/
namespace AsOf

namespace Text

/-- A text stands in another one if it is the beginning of what is left after some characters. -/
theorem occursIn_iff {needle cs : List Char} : occursIn needle cs ↔ needle <:+: cs := by
  induction cs with
  | nil => rw [occursIn, List.isEmpty_iff, List.infix_nil]
  | cons c cs ih => rw [occursIn, Bool.or_eq_true, ih, List.isPrefixOf_iff_prefix, List.infix_cons_iff]

end Text

namespace Grid

/-- Grids that compare equal are equal. -/
theorem eq_of_beq {α : Type} [BEq α] [LawfulBEq α] {a b : Grid α} (h : (a == b) = true) : a = b := by
  change (a.shape == b.shape && a.toList == b.toList) = true at h
  rw [Bool.and_eq_true, beq_iff_eq, beq_iff_eq] at h
  obtain ⟨hshape, hcells⟩ := h
  have hwidths (g : Grid α) : g.toLists.map List.length = List.replicate g.nrows g.ncols := by
    rw [toLists, List.map_map]
    refine List.eq_replicate_iff.2 ⟨by simp, fun n hn => ?_⟩
    obtain ⟨row, -, rfl⟩ := List.mem_map.1 hn
    exact row.length_toList
  refine ext_toLists (congrArg Prod.snd hshape) (List.eq_iff_flatten_eq.2 ⟨hcells, ?_⟩)
  rw [hwidths, hwidths, show a.nrows = b.nrows from congrArg Prod.fst hshape,
    show a.ncols = b.ncols from congrArg Prod.snd hshape]

end Grid

namespace Dictionary

/-- After the entry that looking a text up finds there is none that is the text. -/
theorem decode_ne_of_codeOf? {d : Dictionary} {label : String} {code later : Nat}
    (h : d.codeOf? label = some code) (hl : code < later) : d.decode later ≠ some label := by
  induction d generalizing code later with
  | nil => cases h
  | cons entry rest ih =>
    obtain ⟨k, rfl⟩ := Nat.exists_eq_succ_of_ne_zero (Nat.ne_zero_of_lt hl)
    rw [codeOf?] at h
    cases hr : codeOf? rest label with
    | some found =>
      rw [hr] at h
      obtain rfl := Option.some.inj h
      obtain ⟨m, rfl⟩ := Nat.exists_eq_succ_of_ne_zero (show k ≠ 0 by omega)
      exact ih hr (Nat.lt_of_succ_lt_succ hl)
    | none =>
      intro he
      have hpos : k ≠ 0 := by
        rintro rfl
        simp only [hr] at h
        split at h
        · obtain rfl := Option.some.inj h
          exact Nat.lt_irrefl 1 hl
        · cases h
      obtain ⟨m, rfl⟩ := Nat.exists_eq_succ_of_ne_zero hpos
      exact codeOf?_eq_none.1 hr (List.mem_of_getElem? he)

/-- Looking a text up finds its last entry. -/
theorem codeOf?_eq_some {d : Dictionary} {label : String} {code : Nat} : d.codeOf? label = some code ↔
    d.decode code = some label ∧ ∀ later, code < later → d.decode later ≠ some label := by
  refine ⟨fun h => ⟨(decode_codeOf? h).2, fun _ => decode_ne_of_codeOf? h⟩, fun ⟨hcode, hlast⟩ => ?_⟩
  cases hf : d.codeOf? label with
  | none =>
    obtain ⟨k, rfl⟩ := Nat.exists_eq_succ_of_ne_zero (show code ≠ 0 by rintro rfl; cases hcode)
    exact absurd (List.mem_of_getElem? hcode) (codeOf?_eq_none.1 hf)
  | some found =>
    obtain hlt | rfl | hlt := Nat.lt_trichotomy found code
    · exact absurd hcode (decode_ne_of_codeOf? hf hlt)
    · rfl
    · exact absurd (decode_codeOf? hf).2 (hlast found hlt)

end Dictionary

namespace Labels

open Dictionary

variable {a b : Labels}

/-! ## One test -/

/-- The flags are up exactly at the cells whose label is present and satisfies `p`. -/
structure Marks (flags : Grid Bool) (a : Labels) (p : String → Prop) : Prop where
  shape : flags.shape = a.shape
  cell : ∀ i j, flags.get? i j = some true ↔ ∃ label, a.get? i j = some label ∧ p label

/-- A question that is put to every entry of the dictionary marks the labels with its answer. -/
theorem satisfying_marks {f : String → Bool} {p : String → Prop} (h : ∀ label, f label = true ↔ p label)
    (a : Labels) : Marks (a.satisfying f) a p := by
  refine ⟨rfl, fun i j => ?_⟩
  rw [satisfying_eq, Grid.get?_map, get?_eq_join]
  cases a.toLabels.get? i j with
  | none => exact iff_of_false nofun nofun
  | some label =>
    rw [Option.map_some, Option.some.injEq, Option.any_eq_true]
    simp only [h]
    rfl

/-- What the tests answer, whatever the dictionary. -/
structure Answers (a : Labels) : Prop where
  neLabel : ∀ label, Marks (a.neLabel label) a (· ≠ label)
  isIn : ∀ choices, Marks (a.isIn choices) a (· ∈ choices)
  startsWith : ∀ head, Marks (a.startsWith head) a (head.toList <+: ·.toList)
  endsWith : ∀ tail, Marks (a.endsWith tail) a (tail.toList <:+ ·.toList)
  contains : ∀ needle, Marks (a.contains needle) a (needle.toList <:+: ·.toList)
  isMissing : a.isMissing = a.toLabels.map (·.isNone)
  notMissing : a.notMissing = a.toLabels.map (·.isSome)
  /-- True where the cell's entry is the label and no later entry is. -/
  eqLabel : ∀ label, (a.eqLabel label).shape = a.shape ∧ ∀ i j, (a.eqLabel label).get? i j = some true ↔
    ∃ code, a.codes.get? i j = some code ∧ a.categories.decode code = some label ∧
      ∀ later, code < later → a.categories.decode later ≠ some label

theorem notMissing_eq (h : a.Valid) : a.notMissing = a.toLabels.map (·.isSome) := by
  rw [notMissing, toLabels, Grid.map_map]
  refine Grid.map_congr fun i j code hc => ?_
  rw [Function.comp_apply, Bool.eq_iff_iff, bne_iff_ne, Option.isSome_iff_ne_none, ne_eq, ne_eq,
    decode_eq_none (h i j code hc)]

theorem Reached.answers (h : Reached a) : a.Answers where
  neLabel label := satisfying_marks (fun _ => bne_iff_ne) a
  isIn choices := satisfying_marks (fun _ => List.contains_iff_mem) a
  startsWith head := satisfying_marks (fun _ => List.isPrefixOf_iff_prefix) a
  endsWith tail := satisfying_marks (fun _ => List.isSuffixOf_iff_suffix) a
  contains needle := satisfying_marks (fun _ => Text.occursIn_iff) a
  isMissing := isMissing_eq h.valid
  notMissing := notMissing_eq h.valid
  eqLabel label := by
    refine ⟨shape_eqLabel a label, fun i j => ?_⟩
    rw [get?_eqLabel, Option.map_eq_some_iff, Labels.codeOf?]
    simp only [beq_iff_eq, codeOf?_eq_some]

/-! ## Dictionaries without repeats -/

/-- A grid made without giving it a dictionary that has a text twice. To rename the labels of any
grid, or to put any grids one under the other, makes a new dictionary. -/
inductive Unrepeated : Labels → Prop
  | ofLabels (g : Grid (Option String)) : Unrepeated (ofLabels g)
  | ofFlat {shape : Nat × Nat} {labels : List (Option String)} {a : Labels} (h : ofFlat shape labels = .ok a) :
      Unrepeated a
  | ofCodes {codes : Grid Nat} {categories : Dictionary} {a : Labels} (hn : categories.Nodup)
      (h : ofCodes codes categories = .ok a) : Unrepeated a
  | missing (shape : Nat × Nat) : Unrepeated (missing shape)
  | intern {a : Labels} (h : Unrepeated a) (label : Option String) : Unrepeated (a.intern label).1
  | set {a : Labels} (h : Unrepeated a) (row col : Nat) (label : Option String) : Unrepeated (a.set row col label)
  | fillRegion {a : Labels} (h : Unrepeated a) (rows cols : Nat × Nat) (label : Option String) :
      Unrepeated (a.fillRegion rows cols label)
  | mapLabels {a : Labels} (h : Reached a) (f : String → Option String) : Unrepeated (a.mapLabels f)
  | sliceRows {a : Labels} (h : Unrepeated a) (start stop : Nat) : Unrepeated (a.sliceRows start stop)
  | rowsBetween {a : Labels} (h : Unrepeated a) (start stop : UInt64) : Unrepeated (a.rowsBetween start stop)
  | selectColumns {a : Labels} (h : Unrepeated a) (cols : List Nat) : Unrepeated (a.selectColumns cols)
  | selectRows {a : Labels} (h : Unrepeated a) (rows : List Nat) : Unrepeated (a.selectRows rows)
  | concatRows {parts : List Labels} {a : Labels} (hs : ∀ part ∈ parts, Reached part)
      (h : concatRows parts = .ok a) : Unrepeated a
  | whereMask {a b : Labels} {mask : Grid Bool} {missing : Scalar} (h : Unrepeated a)
      (hm : (Block.labels a).whereMask mask missing = .ok (.labels b)) : Unrepeated b

theorem Unrepeated.reached (h : Unrepeated a) : Reached a := by
  induction h with
  | ofLabels g => exact .ofLabels g
  | ofFlat h => exact .ofFlat h
  | ofCodes _ h => exact .ofCodes h
  | missing shape => exact .missing shape
  | intern _ label ih => exact .intern ih label
  | set _ row col label ih => exact .set ih row col label
  | fillRegion _ rows cols label ih => exact .fillRegion ih rows cols label
  | mapLabels h f => exact .mapLabels h f
  | sliceRows _ start stop ih => exact .sliceRows ih start stop
  | rowsBetween _ start stop ih => exact .rowsBetween ih start stop
  | selectColumns _ cols ih => exact .selectColumns ih cols
  | selectRows _ rows ih => exact .selectRows ih rows
  | concatRows hs h => exact .concatRows hs h
  | whereMask _ hm ih => exact .whereMask ih hm

theorem nodup_concatRows {parts : List Labels} (hv : ∀ part ∈ parts, part.Valid) (h : concatRows parts = .ok a) :
    a.categories.Nodup := by
  cases parts with
  | nil =>
    obtain rfl := Except.ok.inj h
    exact List.nodup_nil
  | cons first rest =>
    obtain ⟨recoded, hrecoded, -⟩ := Checked.bind_eq_ok.1 h
    obtain ⟨b, hb, -, hn, -⟩ := concatRows_spec hv fun part hpart =>
      width_of_recodeAll hrecoded part (List.mem_cons_of_mem _ hpart)
    obtain rfl := Except.ok.inj (hb.symm.trans h)
    exact hn

/-- What every operation keeps once the dictionary has no text twice. -/
theorem Unrepeated.nodup (h : Unrepeated a) : a.categories.Nodup := by
  induction h with
  | ofLabels g => exact nodup_internAll List.nodup_nil g.toList
  | ofFlat h =>
    obtain ⟨-, rfl⟩ := ofFlat_eq_ok.1 h
    exact nodup_internAll List.nodup_nil _
  | ofCodes hn h =>
    obtain ⟨-, rfl⟩ := ofCodes_eq_ok.1 h
    exact hn
  | missing shape => exact List.nodup_nil
  | intern _ label ih => exact nodup_intern ih label
  | set _ row col label ih => exact nodup_intern ih label
  | fillRegion _ rows cols label ih => exact nodup_intern ih label
  | @mapLabels a _ f => exact nodup_internAll List.nodup_nil (a.categories.map f)
  | sliceRows _ start stop ih => exact ih
  | rowsBetween _ start stop ih => exact ih
  | selectColumns _ cols ih => exact ih
  | selectRows _ rows ih => exact ih
  | concatRows hs h => exact nodup_concatRows (fun part hpart => (hs part hpart).valid) h
  | @whereMask a b mask missing h hm ih =>
    obtain ⟨hshape, hdtype⟩ := Block.of_whereMask hm
    obtain ⟨c, hc, -, -, hdistinct, -⟩ := Block.whereMask_spec hshape hdtype (b := .labels a) h.reached.valid
    obtain rfl := Except.ok.inj (hc.symm.trans hm)
    exact hdistinct ih

/-! ## The test for one label -/

/-- No cell is under an entry that is the label while a later entry is the label too. -/
def UnderLast (a : Labels) (label : String) : Prop :=
  ∀ i j code, a.codes.get? i j = some code → a.categories.decode code = some label →
    ∀ later, code < later → a.categories.decode later ≠ some label

theorem Unrepeated.underLast (h : Unrepeated a) (label : String) : a.UnderLast label := by
  intro i j code hcode hlabel later hlt hlater
  obtain ⟨k, rfl⟩ := Nat.exists_eq_succ_of_ne_zero (Nat.ne_zero_of_lt hlt)
  have hle : k + 1 ≤ a.categories.length := (List.getElem?_eq_some_iff.1 (decode_succ _ k ▸ hlater)).1
  exact Nat.ne_of_lt hlt (decode_injective h.nodup (h.reached.valid i j code hcode) hle (hlabel.trans hlater.symm))

/-- To compare codes is then to compare labels, and only then. -/
theorem eqLabel_marks_iff (h : Reached a) (label : String) :
    Marks (a.eqLabel label) a (· = label) ↔ a.UnderLast label := by
  obtain ⟨hshape, hcell⟩ := h.answers.eqLabel label
  refine ⟨fun hm i j code hcode hlabel => ?_, fun hu => ⟨hshape, fun i j => (hcell i j).trans ⟨?_, ?_⟩⟩⟩
  · have hget : a.get? i j = some label := Option.bind_eq_some_iff.2 ⟨code, hcode, hlabel⟩
    obtain ⟨found, hfound, -, hlast⟩ := (hcell i j).1 ((hm.cell i j).2 ⟨label, hget, rfl⟩)
    obtain rfl := Option.some.inj (hcode.symm.trans hfound)
    exact hlast
  · rintro ⟨code, hcode, hlabel, -⟩
    exact ⟨label, Option.bind_eq_some_iff.2 ⟨code, hcode, hlabel⟩, rfl⟩
  · rintro ⟨_, hget, rfl⟩
    obtain ⟨code, hcode, hlabel⟩ := Option.bind_eq_some_iff.1 hget
    exact ⟨code, hcode, hlabel, hu i j code hcode hlabel⟩

/-- The flags of one label are those of the decoded grid. -/
theorem Marks.eq_map {flags : Grid Bool} {label : String} (h : Marks flags a (· = label)) :
    flags = a.toLabels.map (· == some label) := by
  have hin (i j : Nat) : (flags.get? i j).isSome = (a.toLabels.get? i j).isSome := by
    have hrows : flags.nrows = a.toLabels.nrows := congrArg Prod.fst h.shape
    have hcols : flags.ncols = a.toLabels.ncols := congrArg Prod.snd h.shape
    rw [Bool.eq_iff_iff, Grid.isSome_get?, Grid.isSome_get?, hrows, hcols]
  refine Grid.ext_get? h.shape fun i j => ?_
  rw [Grid.get?_map]
  cases hf : flags.get? i j with
  | none =>
    have hnone : a.toLabels.get? i j = none := by
      rw [← Option.not_isSome_iff_eq_none, ← hin, hf]
      nofun
    rw [hnone, Option.map_none]
  | some flag =>
    obtain ⟨text, htext⟩ := Option.isSome_iff_exists.1 ((hin i j).symm.trans (congrArg Option.isSome hf))
    have hcell := h.cell i j
    rw [hf, get?_eq_join, htext, Option.some_inj] at hcell
    rw [htext, Option.map_some, Option.some_inj, Bool.eq_iff_iff, hcell, beq_iff_eq]
    exact ⟨fun ⟨_, e, he⟩ => e.trans (congrArg some he), fun e => ⟨label, e, rfl⟩⟩

/-- Exactly one of three flags is up. -/
def OneOf (x y z : Option Bool) : Prop :=
  (x = some true ∧ y = some false ∧ z = some false) ∨ (x = some false ∧ y = some true ∧ z = some false) ∨
    x = some false ∧ y = some false ∧ z = some true

/-- A label is the one asked for, or another one, or there is none: the tests say so, again, exactly
where codes can stand for labels. -/
theorem oneOf_iff (h : Reached a) (label : String) :
    (∀ i < a.shape.1, ∀ j < a.shape.2,
      OneOf ((a.eqLabel label).get? i j) ((a.neLabel label).get? i j) (a.isMissing.get? i j)) ↔
      a.UnderLast label := by
  refine ⟨fun hone i j code hcode hlabel => ?_, fun hu i hi j hj => ?_⟩
  · obtain ⟨hi, hj⟩ := Grid.lt_of_get? hcode
    have htext : a.toLabels.get? i j = some (some label) := by
      rw [toLabels, Grid.get?_map, hcode, Option.map_some, hlabel]
    have hne : (a.neLabel label).get? i j = some false := by
      rw [neLabel, satisfying_eq, Grid.get?_map, htext]
      simp
    have hpresent : a.isMissing.get? i j = some false := by
      rw [isMissing_eq h.valid, Grid.get?_map, htext]
      rfl
    have heq : (a.eqLabel label).get? i j = some true := by
      have := hone i hi j hj
      rw [hne, hpresent] at this
      simpa [OneOf] using this
    obtain ⟨found, hfound, -, hlast⟩ := ((h.answers.eqLabel label).2 i j).1 heq
    obtain rfl := Option.some.inj (hcode.symm.trans hfound)
    exact hlast
  · obtain ⟨text, htext⟩ := Option.isSome_iff_exists.1 (Grid.isSome_get?.2 (⟨hi, hj⟩ : i < a.toLabels.nrows ∧ _))
    rw [((eqLabel_marks_iff h label).2 hu).eq_map, neLabel, satisfying_eq, isMissing_eq h.valid,
      Grid.get?_map, Grid.get?_map, Grid.get?_map, htext]
    cases text with
    | none => exact .inr (.inr ⟨rfl, rfl, rfl⟩)
    | some text =>
      by_cases he : text = label
      · subst he
        exact .inl ⟨by simp, by simp, rfl⟩
      · exact .inr (.inl ⟨by simp [he], by simp [he], rfl⟩)

/-! ## All tests -/

/-- Two grids answer every test but `eqLabel` alike, and that one wherever it is a test on labels. -/
structure Alike (a b : Labels) : Prop where
  neLabel : ∀ label, a.neLabel label = b.neLabel label
  isIn : ∀ choices, a.isIn choices = b.isIn choices
  startsWith : ∀ head, a.startsWith head = b.startsWith head
  endsWith : ∀ tail, a.endsWith tail = b.endsWith tail
  contains : ∀ needle, a.contains needle = b.contains needle
  isMissing : a.isMissing = b.isMissing
  notMissing : a.notMissing = b.notMissing
  eqLabel : ∀ label, a.UnderLast label → b.UnderLast label → a.eqLabel label = b.eqLabel label

theorem Reached.alike (ha : Reached a) (hb : Reached b) (h : a.toLabels = b.toLabels) : Alike a b := by
  have hall (f : String → Bool) : a.satisfying f = b.satisfying f := by
    rw [satisfying_eq, satisfying_eq, h]
  refine ⟨fun _ => hall _, fun _ => hall _, fun _ => hall _, fun _ => hall _, fun _ => hall _, ?_, ?_,
    fun label hu hu' => ?_⟩
  · rw [isMissing_eq ha.valid, isMissing_eq hb.valid, h]
  · rw [notMissing_eq ha.valid, notMissing_eq hb.valid, h]
  · rw [((eqLabel_marks_iff ha label).2 hu).eq_map, ((eqLabel_marks_iff hb label).2 hu').eq_map, h]

/-- Over any dictionary each test but `eqLabel` marks the cells whose label has the property, and
`eqLabel` those whose entry is the last one with the text. It marks the cells with the label, and
parts the cells with `neLabel` and `isMissing`, exactly if none of them is under an earlier entry,
as none is unless a dictionary with a repeat was given. Grids that compare equal answer alike. -/
theorem tests_read_labels {a : Labels} (ha : Reached a) :
    Answers a ∧
    (∀ label, (Marks (a.eqLabel label) a (· = label) ↔ a.UnderLast label) ∧
      ((∀ i < a.shape.1, ∀ j < a.shape.2,
        OneOf ((a.eqLabel label).get? i j) ((a.neLabel label).get? i j) (a.isMissing.get? i j)) ↔
        a.UnderLast label)) ∧
    (Unrepeated a → ∀ label, a.UnderLast label) ∧
    ∀ b, Reached b → (a == b) = true → Alike a b :=
  ⟨ha.answers, fun label => ⟨eqLabel_marks_iff ha label, oneOf_iff ha label⟩, Unrepeated.underLast,
    fun _ hb h => ha.alike hb (Grid.eq_of_beq h)⟩

/-- No label, and one label under both entries of a dictionary that has it twice. -/
def twice : Labels := ⟨.ofFn 1 3 fun _ j => j.val, ["x", "x"]⟩

/-- The test for the repeated label misses the cell under the first entry. It finds both cells in
the grid with the same labels over a dictionary without repeats, and so does `isIn` in either. -/
theorem tests_read_labels_repeated :
    ofCodes twice.codes twice.categories = .ok twice ∧ twice.get? 0 1 = some "x" ∧
    (twice.eqLabel "x").get? 0 1 ≠ some true ∧ (twice.isIn ["x"]).get? 0 1 = some true ∧
    (twice == ofLabels twice.toLabels) = true ∧ Alike twice (ofLabels twice.toLabels) ∧
    ((ofLabels twice.toLabels).eqLabel "x").get? 0 1 = some true ∧
    OneOf (((ofLabels twice.toLabels).eqLabel "x").get? 0 1) (((ofLabels twice.toLabels).neLabel "x").get? 0 1)
      ((ofLabels twice.toLabels).isMissing.get? 0 1) ∧
    (ofLabels twice.toLabels).eqLabel "x" = ((ofLabels twice.toLabels).sliceRows 0 1).eqLabel "x" := by
  have htwice : Reached twice := .ofCodes (show ofCodes twice.codes twice.categories = .ok twice from rfl)
  have hnew : Unrepeated (ofLabels twice.toLabels) := .ofLabels twice.toLabels
  have hpart : Unrepeated ((ofLabels twice.toLabels).sliceRows 0 1) := .sliceRows hnew 0 1
  obtain ⟨hanswers, -, -, halike⟩ := tests_read_labels htwice
  obtain ⟨-, hexact, hlast, hequal⟩ := tests_read_labels hnew.reached
  refine ⟨rfl, rfl, fun h => ?_, ?_, by decide, halike _ hnew.reached (by decide), ?_, ?_, ?_⟩
  · obtain ⟨code, hcode, -, hno⟩ := ((hanswers.eqLabel "x").2 0 1).1 h
    obtain rfl := Option.some.inj hcode
    exact hno 2 (by decide) rfl
  · exact ((hanswers.isIn ["x"]).cell 0 1).2 ⟨"x", rfl, List.mem_singleton_self "x"⟩
  · exact (((hexact "x").1.2 (hlast hnew "x")).cell 0 1).2 ⟨"x", rfl, rfl⟩
  · exact (hexact "x").2.2 (hlast hnew "x") 0 (by decide) 1 (by decide)
  · exact (hequal _ hpart.reached (by decide)).eqLabel "x" (hlast hnew "x") (hpart.underLast "x")

end Labels
end AsOf
