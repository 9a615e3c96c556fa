import AsOf.Array.Label
import AsOf.Proofs.Checked
import AsOf.Proofs.Grid

/-!
# What the cells of a grid of labels decode to

Codes are compared through what they decode to. A grid is `Valid` when every code
names an entry; then a dictionary may grow behind its back without changing a
cell. Where no text stands in the dictionary twice, equal labels have equal codes.

* `internAll_spec`: interned labels decode to themselves, and entries stay.
* `toLabels_fillWhere`, `toLabels_concatRows`: what writing and stacking do to the
  decoded cells.
* `eqLabel_eq`: looking a label up by its code finds the cells that decode to it,
  if no text stands twice.
-/
namespace AsOf

namespace Dictionary

/-! ## Codes and entries -/

theorem decode_missing (d : Dictionary) : d.decode missingCode = none := rfl

theorem decode_succ (d : Dictionary) (k : Nat) : d.decode (k + 1) = d[k]? := rfl

theorem decode_eq_none {d : Dictionary} {code : Nat} (h : code ≤ d.length) :
    d.decode code = none ↔ code = missingCode := by
  cases code with
  | zero => exact iff_of_true rfl rfl
  | succ k =>
    rw [decode_succ, List.getElem?_eq_none_iff]
    exact iff_of_false (by omega) (Nat.succ_ne_zero k)

/-- Entries that are added later do not show. -/
theorem decode_of_isPrefix {d d' : Dictionary} (h : d <+: d') {code : Nat} (hc : code ≤ d.length) :
    d'.decode code = d.decode code := by
  cases code with
  | zero => rfl
  | succ k =>
    obtain ⟨more, rfl⟩ := h
    exact List.getElem?_append_left hc

theorem decode_injective {d : Dictionary} (h : d.Nodup) {a b : Nat} (ha : a ≤ d.length)
    (hb : b ≤ d.length) (e : d.decode a = d.decode b) : a = b := by
  cases a with
  | zero => exact ((decode_eq_none hb).1 e.symm).symm
  | succ k =>
    cases b with
    | zero => exact (decode_eq_none ha).1 e
    | succ m =>
      rw [decode_succ, decode_succ] at e
      rw [(List.getElem?_inj ha h).1 e]

theorem codeOf?_eq_none {d : Dictionary} {label : String} : d.codeOf? label = none ↔ label ∉ d := by
  induction d with
  | nil => simp [codeOf?]
  | cons entry rest ih =>
    rw [codeOf?, List.mem_cons, not_or, ← ih]
    cases codeOf? rest label with
    | some code => simp
    | none => simp [eq_comm]

theorem decode_codeOf? {d : Dictionary} {label : String} {code : Nat}
    (h : d.codeOf? label = some code) : code ≤ d.length ∧ d.decode code = some label := by
  induction d generalizing code with
  | nil => cases h
  | cons entry rest ih =>
    rw [codeOf?] at h
    cases hr : codeOf? rest label with
    | some c =>
      rw [hr] at h
      obtain rfl := Option.some.inj h
      obtain ⟨hc, hd⟩ := ih hr
      cases c with
      | zero => cases hd
      | succ k => exact ⟨Nat.succ_le_succ hc, hd⟩
    | none =>
      rw [hr] at h
      simp only at h
      split at h
      · obtain rfl := Option.some.inj h
        subst label
        exact ⟨Nat.succ_le_succ (Nat.zero_le _), rfl⟩
      · cases h

/-- Without repeats, a label has the code of each cell that decodes to it. -/
theorem codeOf?_decode {d : Dictionary} (hn : d.Nodup) {label : String} {code : Nat}
    (hc : code ≤ d.length) (h : d.decode code = some label) : d.codeOf? label = some code := by
  cases hf : d.codeOf? label with
  | none =>
    cases code with
    | zero => cases h
    | succ k => exact absurd (List.mem_of_getElem? h) (codeOf?_eq_none.1 hf)
  | some found =>
    obtain ⟨hl, hd⟩ := decode_codeOf? hf
    rw [decode_injective hn hl hc (hd.trans h.symm)]

/-! ## Interning -/

/-- Interning keeps all entries and gives a code of the label. -/
theorem intern_spec (d : Dictionary) (label : Option String) :
    d <+: (d.intern label).1 ∧ (d.intern label).2 ≤ (d.intern label).1.length ∧
      (d.intern label).1.decode (d.intern label).2 = label := by
  cases label with
  | none => exact ⟨List.prefix_rfl, Nat.zero_le _, rfl⟩
  | some label =>
    simp only [intern]
    cases hc : d.codeOf? label with
    | some code => exact ⟨List.prefix_rfl, decode_codeOf? hc⟩
    | none =>
      refine ⟨List.prefix_append d [label], ?_, ?_⟩
      · rw [List.length_append]
        exact Nat.le_refl _
      · rw [decode_succ]
        exact List.getElem?_concat_length

theorem nodup_intern {d : Dictionary} (h : d.Nodup) (label : Option String) :
    (d.intern label).1.Nodup := by
  cases label with
  | none => exact h
  | some label =>
    simp only [intern]
    cases hc : d.codeOf? label with
    | some code => exact h
    | none => exact List.nodup_append.2 ⟨h, by simp, fun a ha b hb e =>
        codeOf?_eq_none.1 hc (List.mem_singleton.1 hb ▸ e ▸ ha)⟩

theorem intern_of_nodup {d : Dictionary} (h : d.Nodup) {code : Nat} (hc : code ≤ d.length) :
    d.intern (d.decode code) = (d, code) := by
  cases hd : d.decode code with
  | none => rw [(decode_eq_none hc).1 hd, intern]
  | some label =>
    rw [intern, codeOf?_decode h hc hd]

/-- Interned labels decode to themselves, and entries stay. -/
theorem internAll_spec (d : Dictionary) (labels : List (Option String)) :
    d <+: (d.internAll labels).1 ∧ (∀ code ∈ (d.internAll labels).2, code ≤ (d.internAll labels).1.length) ∧
      (d.internAll labels).2.map (d.internAll labels).1.decode = labels := by
  induction labels generalizing d with
  | nil => exact ⟨List.prefix_rfl, by simp [internAll], rfl⟩
  | cons label rest ih =>
    obtain ⟨hp, hc, hd⟩ := intern_spec d label
    obtain ⟨hp', hc', hd'⟩ := ih (d.intern label).1
    simp only [internAll]
    refine ⟨hp.trans hp', ?_, ?_⟩
    · intro code hm
      rcases List.mem_cons.1 hm with rfl | hm
      · exact Nat.le_trans hc hp'.length_le
      · exact hc' code hm
    · rw [List.map_cons, hd', decode_of_isPrefix hp' hc, hd]

/-- Every label gets one code. -/
theorem length_internAll (d : Dictionary) (labels : List (Option String)) :
    (d.internAll labels).2.length = labels.length := by
  simpa using congrArg List.length (internAll_spec d labels).2.2

theorem nodup_internAll {d : Dictionary} (h : d.Nodup) (labels : List (Option String)) :
    (d.internAll labels).1.Nodup := by
  induction labels generalizing d with
  | nil => exact h
  | cons label rest ih => exact ih (nodup_intern h label)

/-- A label that has been interned has a code already. -/
theorem intern_internAll {labels : List (Option String)} {label : Option String} (h : label ∈ labels) :
    (internAll [] labels).1.intern label =
      ((internAll [] labels).1, ((internAll [] labels).1.intern label).2) := by
  obtain ⟨-, hc, hd⟩ := internAll_spec [] labels
  obtain ⟨code, hm, rfl⟩ := List.mem_map.1 (hd.symm ▸ h)
  rw [intern_of_nodup (nodup_internAll List.nodup_nil labels) (hc code hm)]

theorem decode_intern_of_mem {labels : List (Option String)} {label : Option String}
    (h : label ∈ labels) :
    (internAll [] labels).1.decode ((internAll [] labels).1.intern label).2 = label := by
  obtain ⟨-, -, hd⟩ := intern_spec (internAll [] labels).1 label
  rwa [intern_internAll h] at hd

end Dictionary

namespace Labels

open Dictionary

/-- Every code is 0 or the code of an entry. -/
def Valid (a : Labels) : Prop := ∀ i j code, a.codes.get? i j = some code → code ≤ a.categories.length

/-! ## Writing -/

theorem valid_fillWhere {a : Labels} (h : a.Valid) (p : Nat → Nat → Bool) (label : Option String) :
    (a.fillWhere p label).Valid := by
  obtain ⟨hp, hc, -⟩ := intern_spec a.categories label
  intro i j code hg
  change (Grid.mapIdx _ a.codes).get? i j = some code at hg
  rw [Grid.get?_mapIdx, Option.map_eq_some_iff] at hg
  obtain ⟨old, ho, rfl⟩ := hg
  show (if p i j then _ else old) ≤ _
  split
  · exact hc
  · exact Nat.le_trans (h i j old ho) hp.length_le

theorem toLabels_fillWhere {a : Labels} (h : a.Valid) (p : Nat → Nat → Bool)
    (label : Option String) :
    (a.fillWhere p label).toLabels = a.toLabels.mapIdx fun i j old => if p i j then label else old := by
  obtain ⟨hp, -, hd⟩ := intern_spec a.categories label
  refine Grid.ext_get? rfl fun i j => ?_
  show ((Grid.mapIdx _ a.codes).map (a.categories.intern label).1.decode).get? i j =
    (Grid.mapIdx _ (a.codes.map a.categories.decode)).get? i j
  rw [Grid.get?_map, Grid.get?_mapIdx, Grid.get?_mapIdx, Grid.get?_map]
  cases ho : a.codes.get? i j with
  | none => rfl
  | some old =>
    simp only [Option.map_some]
    split
    · exact congrArg some hd
    · exact congrArg some (decode_of_isPrefix hp (h i j old ho))

/-- Labels where the mask lets them through, and one label elsewhere. -/
theorem valid_keep {a : Labels} (h : a.Valid) (label : Option String) (mask : Grid Bool) :
    Valid ⟨a.codes.zipWith (fun code keep => if keep then code else (a.intern label).2) mask,
      (a.intern label).1.categories⟩ := by
  obtain ⟨hp, hc, -⟩ := intern_spec a.categories label
  intro i j code hget
  change (Grid.zipWith _ a.codes mask).get? i j = some code at hget
  rw [Grid.get?_zipWith, Option.bind_eq_some_iff] at hget
  obtain ⟨old, ho, hget⟩ := hget
  obtain ⟨keep, -, rfl⟩ := Option.map_eq_some_iff.1 hget
  cases keep with
  | true => exact Nat.le_trans (h i j old ho) hp.length_le
  | false => exact hc

theorem toLabels_keep {a : Labels} (h : a.Valid) (label : Option String) (mask : Grid Bool) :
    toLabels ⟨a.codes.zipWith (fun code keep => if keep then code else (a.intern label).2) mask,
        (a.intern label).1.categories⟩ =
      a.toLabels.zipWith (fun old keep => if keep then old else label) mask := by
  obtain ⟨hp, -, hd⟩ := intern_spec a.categories label
  have hcodes : a.codes.map (a.categories.intern label).1.decode = a.toLabels :=
    Grid.map_congr fun i j code hcode => decode_of_isPrefix hp (h i j code hcode)
  show (Grid.zipWith _ a.codes mask).map (a.categories.intern label).1.decode = _
  rw [Grid.map_keep, hcodes, show (a.categories.intern label).1.decode (a.intern label).2 = label from hd]

/-- Labels that are put into a new dictionary are read out of it again. -/
theorem toLabels_ofLabels (g : Grid (Option String)) : (ofLabels g).toLabels = g := by
  refine Grid.ext_get? rfl fun i j => ?_
  show ((g.map fun label => ((internAll [] g.toList).1.intern label).2).map
    (internAll [] g.toList).1.decode).get? i j = _
  rw [Grid.map_map, Grid.get?_map]
  cases hl : g.get? i j with
  | none => rfl
  | some label =>
    have hm : label ∈ g.toList := Grid.mem_toList.2 ⟨i, j, hl⟩
    exact congrArg some (decode_intern_of_mem hm)

/-! ## Asking -/

theorem isMissing_eq {a : Labels} (h : a.Valid) : a.isMissing = a.toLabels.map (·.isNone) := by
  rw [isMissing, toLabels, Grid.map_map]
  refine Grid.map_congr fun i j code hc => ?_
  rw [Function.comp_apply, Bool.eq_iff_iff, beq_iff_eq, Option.isNone_iff_eq_none,
    decode_eq_none (h i j code hc)]

theorem satisfying_eq (f : String → Bool) (a : Labels) :
    a.satisfying f = a.toLabels.map (·.any f) := by
  rw [satisfying, toLabels, Grid.map_map]
  rfl

theorem shape_eqLabel (a : Labels) (label : String) : (a.eqLabel label).shape = a.shape := by
  unfold eqLabel
  cases a.codeOf? label <;> rfl

/-- A cell is equal to a label if its code is the one that is found for the label. -/
theorem get?_eqLabel (a : Labels) (label : String) (i j : Nat) :
    (a.eqLabel label).get? i j = (a.codes.get? i j).map fun code => a.codeOf? label == some code := by
  unfold eqLabel
  cases a.codeOf? label with
  | none =>
    rw [Grid.get?_replicate]
    cases hc : a.codes.get? i j with
    | none => exact if_neg (Grid.get?_eq_none.1 hc)
    | some code => exact if_pos (Grid.lt_of_get? hc)
  | some found =>
    rw [Grid.get?_map]
    refine congrArg (Option.map · _) (funext fun code => ?_)
    rw [Option.some_beq_some, Bool.beq_comm]

theorem eqLabel_eq {a : Labels} (h : a.Valid) (hn : a.categories.Nodup) (label : String) :
    a.eqLabel label = a.toLabels.map (· == some label) := by
  rw [eqLabel, Labels.codeOf?]
  cases hf : a.categories.codeOf? label with
  | some found =>
    obtain ⟨hl, hd⟩ := decode_codeOf? hf
    rw [toLabels, Grid.map_map]
    refine Grid.map_congr fun i j code hc => ?_
    rw [Function.comp_apply, Bool.eq_iff_iff, beq_iff_eq, beq_iff_eq, ← hd]
    exact ⟨fun e => e ▸ rfl, decode_injective hn (h i j code hc) hl⟩
  | none =>
    refine Grid.ext_get? rfl fun i j => ?_
    rw [toLabels, Grid.map_map, Grid.get?_map, Grid.get?_replicate]
    cases hc : a.codes.get? i j with
    | none =>
      exact if_neg (Grid.get?_eq_none.1 hc)
    | some code =>
      rw [show a.shape = (a.codes.nrows, a.codes.ncols) from rfl, if_pos (Grid.lt_of_get? hc), Option.map_some,
        Function.comp_apply, beq_eq_false_iff_ne.2]
      intro e
      cases code with
      | zero => cases e
      | succ k => exact codeOf?_eq_none.1 hf (List.mem_of_getElem? e)

/-! ## Stacking -/

/-- The code of an entry becomes a code of what the entry is changed to. -/
theorem decode_recode {d categories : Dictionary} {f : String → Option String} {table : List Nat}
    (ht : table.map d.decode = categories.map f) {code : Nat} (hc : code ≤ categories.length) :
    d.decode (recode table code) = (categories.decode code).bind f := by
  cases code with
  | zero => rfl
  | succ k =>
    have hk : k < table.length := by
      have := congrArg List.length ht
      simp only [List.length_map] at this
      omega
    have e := congrArg (·[k]?) ht
    simp only [List.getElem?_map, List.getElem?_eq_getElem hk,
      List.getElem?_eq_getElem (show k < categories.length from hc), Option.map_some] at e
    rw [decode_succ, List.getElem?_eq_getElem (show k < categories.length from hc), Option.bind_some]
    simp only [recode, missingCode, Nat.add_eq_zero_iff, Nat.one_ne_zero, and_false, if_false,
      Nat.add_sub_cancel, List.getD_eq_getElem?_getD, List.getElem?_eq_getElem hk, Option.getD_some]
    exact Option.some.inj e

theorem recode_le {d : Dictionary} {table : List Nat} (h : ∀ code ∈ table, code ≤ d.length)
    (code : Nat) : recode table code ≤ d.length := by
  rw [recode]
  split
  · exact Nat.zero_le _
  · rw [List.getD_eq_getElem?_getD]
    cases hk : table[code - 1]? with
    | none => exact Nat.zero_le _
    | some c => exact h c (List.mem_of_getElem? hk)

/-- Recoding succeeds on parts of one width and keeps what every cell decodes to. -/
theorem recodeAll_spec (ncols : Nat) (d : Dictionary) (parts : List Labels)
    (hv : ∀ a ∈ parts, a.Valid) (hc : ∀ a ∈ parts, a.shape.2 = ncols) :
    ∃ d' grids, recodeAll ncols d parts = .ok (d', grids) ∧ d <+: d' ∧
      (d.Nodup → d'.Nodup) ∧
      (∀ g ∈ grids, ∀ i j code, g.get? i j = some code → code ≤ d'.length) ∧
      grids.map (·.map d'.decode) = parts.map toLabels := by
  induction parts generalizing d with
  | nil => exact ⟨d, [], rfl, List.prefix_rfl, id, nofun, rfl⟩
  | cons part rest ih =>
    obtain ⟨hp, ht, htd⟩ := internAll_spec d (part.categories.map some)
    have hpart := hv part List.mem_cons_self
    obtain ⟨d', grids, hr, hp', hn, hle, hg⟩ := ih (d.internAll (part.categories.map some)).1
      (fun a ha => hv a (List.mem_cons_of_mem part ha))
      (fun a ha => hc a (List.mem_cons_of_mem part ha))
    refine ⟨d', part.codes.map (recode (d.internAll (part.categories.map some)).2) :: grids,
      ?_, hp.trans hp', fun h => hn (nodup_internAll h _), ?_, ?_⟩
    · rw [recodeAll, if_neg (not_not_intro (hc part List.mem_cons_self))]
      simp only [hr]
      rfl
    · intro g hm i j code hget
      rcases List.mem_cons.1 hm with rfl | hm
      · rw [Grid.get?_map, Option.map_eq_some_iff] at hget
        obtain ⟨old, -, rfl⟩ := hget
        exact Nat.le_trans (recode_le ht old) hp'.length_le
      · exact hle g hm i j code hget
    · rw [List.map_cons, List.map_cons, hg, Grid.map_map, toLabels]
      congr 1
      refine Grid.map_congr fun i j code hcode => ?_
      rw [Function.comp_apply, decode_of_isPrefix hp' (recode_le ht code),
        decode_recode htd (hpart i j code hcode), Option.bind_fun_some]

/-- Only parts of one width are recoded. -/
theorem width_of_recodeAll {ncols : Nat} {d : Dictionary} {parts : List Labels} {recoded : Dictionary × List (Grid Nat)}
    (h : recodeAll ncols d parts = .ok recoded) : ∀ part ∈ parts, part.shape.2 = ncols := by
  induction parts generalizing d recoded with
  | nil => exact nofun
  | cons part parts ih =>
    unfold recodeAll at h
    by_cases hw : part.shape.2 ≠ ncols
    · rw [if_pos hw] at h
      cases h
    · rw [if_neg hw] at h
      obtain ⟨_, hrest, -⟩ := Checked.bind_eq_ok.1 h
      exact List.forall_mem_cons.2 ⟨not_not.1 hw, ih hrest⟩

/-- Recoding does not move cells. -/
theorem shape_recodeAll {ncols : Nat} {d d' : Dictionary} {parts : List Labels} {grids : List (Grid Nat)}
    (h : recodeAll ncols d parts = .ok (d', grids)) : grids.map Grid.shape = parts.map shape := by
  induction parts generalizing d grids with
  | nil =>
    obtain ⟨-, rfl⟩ := Prod.mk.inj (Except.ok.inj h)
    rfl
  | cons part parts ih =>
    unfold recodeAll at h
    by_cases hw : part.shape.2 ≠ ncols
    · rw [if_pos hw] at h
      cases h
    · rw [if_neg hw] at h
      obtain ⟨⟨d₁, grids'⟩, hrest, h⟩ := Checked.bind_eq_ok.1 h
      obtain ⟨rfl, rfl⟩ := Prod.mk.inj (Except.ok.inj h)
      rw [List.map_cons, List.map_cons, ih hrest]
      rfl

theorem shape_concatRows {parts : List Labels} {height width : Nat} {a : Labels}
    (h : concatRows parts = .ok a) (hne : parts ≠ []) (hs : ∀ part ∈ parts, part.shape = (height, width)) :
    a.shape = (parts.length * height, width) := by
  cases parts with
  | nil => exact absurd rfl hne
  | cons first rest =>
    obtain ⟨⟨d, grids⟩, hgrids, h⟩ := Checked.bind_eq_ok.1 h
    obtain rfl := Except.ok.inj h
    have hmap := shape_recodeAll hgrids
    have hshape : ∀ g ∈ grids, g.shape = (height, width) := by
      intro g hg
      obtain ⟨part, hpart, hg⟩ := List.mem_map.1 (hmap ▸ List.mem_map_of_mem (f := Grid.shape) hg)
      rw [← hg, hs part hpart]
    have hlength : grids.length = (first :: rest).length := by
      rw [← List.length_map (f := Grid.shape), hmap, List.length_map]
    have hfirst : first.shape.2 = width := congrArg Prod.snd (hs first List.mem_cons_self)
    show (Grid.stack first.shape.2 grids).shape = _
    rw [hfirst, Grid.shape_stack hshape, hlength]

theorem concatRows_spec {first : Labels} {rest : List Labels}
    (hv : ∀ a ∈ first :: rest, a.Valid) (hc : ∀ a ∈ rest, a.shape.2 = first.shape.2) :
    ∃ a, concatRows (first :: rest) = .ok a ∧ a.Valid ∧ a.categories.Nodup ∧
      a.codes.ncols = first.shape.2 ∧
      a.toLabels = .stack first.shape.2 ((first :: rest).map toLabels) := by
  have hc' : ∀ a ∈ first :: rest, a.shape.2 = first.shape.2 := by
    intro a ha
    rcases List.mem_cons.1 ha with rfl | ha
    · rfl
    · exact hc a ha
  obtain ⟨d, grids, hr, -, hn, hle, hg⟩ := recodeAll_spec first.shape.2 [] (first :: rest) hv hc'
  have hw : ∀ g ∈ grids, g.ncols = first.shape.2 := by
    intro g hm
    have hm' : g.map d.decode ∈ (first :: rest).map toLabels := hg ▸ List.mem_map_of_mem hm
    obtain ⟨a, ha, e⟩ := List.mem_map.1 hm'
    rw [← hc' a ha]
    exact (congrArg Grid.ncols e).symm
  refine ⟨⟨.stack first.shape.2 grids, d⟩, ?_, ?_, hn List.nodup_nil, rfl, ?_⟩
  · rw [concatRows]
    simp only [hr]
    rfl
  · intro i j code hget
    obtain ⟨g, hm, i', hget'⟩ := Grid.exists_of_get?_stack hw hget
    exact hle g hm i' j code hget'
  · rw [toLabels, Grid.map_stack _ hw, hg]

end Labels
end AsOf
