import AsOf.Proofs.Loader.AsKnown

/-!
# Columns beside those that change

A column is kept under one text, the name of its data set and its own name with a point between
them. A change to a column touches nothing but what is kept under its text, so that columns of
other texts are answered as before. But the names may have points in them too, and then two columns
can come to one text: one data set has the name of the other and, behind a point, what the name of
the other column begins with. These columns have one table between them, and whichever is added
last answers for both.

* `Tables.key_eq_iff`: the columns that are kept under one text.
* `Tables.Keeps`: tables that hold the same of a column.
* `Tables.columns_apart`: what changes to other columns leave as it was.
* `Tables.spilled_column_replaces`: a table that is lost to another column.
-/
namespace AsOf

/-- What is found for a column depends on the histories of that column alone. -/
theorem Loaded.get?_extend_congr {m m' xs ys : Loaded} {column : Column}
    (h : List.Forall₂ (fun x y => x.1 = y.1 ∧ ((column == x.1) = true → x.2 = y.2)) xs ys)
    (hm : m.get? column = m'.get? column) : (m.extend xs).get? column = (m'.extend ys).get? column := by
  induction h generalizing m m' with
  | nil => exact hm
  | @cons x y xs ys hxy _ ih =>
    obtain ⟨c, h⟩ := x
    obtain ⟨c', h'⟩ := y
    obtain ⟨rfl, hh⟩ := hxy
    have hinsert : (m.insert c h).get? column = (m'.insert c h').get? column := by
      rw [get?_insert, get?_insert, hm]
      by_cases hc : (column == c) = true
      · rw [if_pos hc, if_pos hc, show h = h' from hh hc]
      · rw [if_neg hc, if_neg hc]
    exact ih hinsert

namespace Tables

variable {t t' t'' : Tables} {c d : Column} {r : Request}

/-! ## Texts of columns -/

/-- The data set of one column has the name of that of the other and, behind a point, what the name
of the other begins with; the rest of that, behind another point, is the name of the one. -/
def Spills (c d : Column) : Prop :=
  ∃ middle : String, c.dataset = d.dataset ++ "." ++ middle ∧ d.name = middle ++ "." ++ c.name

/-- Two ways to split a text at a point are one, or one of them splits a part of the other. -/
theorem append_point_eq_iff {a b a' b' : List Char} : a ++ '.' :: b = a' ++ '.' :: b' ↔ (a = a' ∧ b = b') ∨
    (∃ middle, a = a' ++ '.' :: middle ∧ b' = middle ++ '.' :: b) ∨
    ∃ middle, a' = a ++ '.' :: middle ∧ b = middle ++ '.' :: b' := by
  constructor
  · intro h
    rcases List.append_eq_append_iff.1 h with ⟨more, rfl, hmore⟩ | ⟨more, rfl, hmore⟩
    · cases more with
      | nil => exact .inl ⟨(List.append_nil a).symm, (List.cons.inj hmore).2⟩
      | cons x middle =>
        obtain ⟨rfl, rfl⟩ := List.cons.inj hmore
        exact .inr (.inr ⟨middle, rfl, rfl⟩)
    · cases more with
      | nil => exact .inl ⟨List.append_nil a', (List.cons.inj hmore).2.symm⟩
      | cons x middle =>
        obtain ⟨rfl, rfl⟩ := List.cons.inj hmore
        exact .inr (.inl ⟨middle, rfl, rfl⟩)
  · rintro (⟨rfl, rfl⟩ | ⟨middle, rfl, rfl⟩ | ⟨middle, rfl, rfl⟩)
    · rfl
    · rw [List.append_assoc, List.cons_append]
    · rw [List.append_assoc, List.cons_append]

theorem spills_iff : Spills c d ↔ ∃ middle, c.dataset.toList = d.dataset.toList ++ '.' :: middle ∧
    d.name.toList = middle ++ '.' :: c.name.toList := by
  constructor
  · rintro ⟨middle, hdataset, hname⟩
    exact ⟨middle.toList, by simp [hdataset], by simp [hname]⟩
  · rintro ⟨middle, hdataset, hname⟩
    refine ⟨String.ofList middle, ?_, ?_⟩
    · rw [← String.toList_inj, hdataset]
      simp
    · rw [← String.toList_inj, hname]
      simp

/-- Two columns are kept under one text if they have the same names or one of them spills. -/
theorem key_eq_iff : key c = key d ↔ (c.dataset = d.dataset ∧ c.name = d.name) ∨ Spills c d ∨ Spills d c := by
  have htext (c : Column) : (key c).toList = c.dataset.toList ++ '.' :: c.name.toList := by
    simp [key]
  rw [← String.toList_inj, htext, htext, append_point_eq_iff, spills_iff, spills_iff, String.toList_inj,
    String.toList_inj]

/-! ## What is kept -/

/-- Tables that hold the same of a column, over the same axes. -/
structure Keeps (t t' : Tables) (d : Column) : Prop where
  dates : t'.dates = t.dates
  sids : t'.sids = t.sids
  table : t'.tables.get? (key d) = t.tables.get? (key d)

namespace Keeps

theorem refl (t : Tables) (d : Column) : Keeps t t d := ⟨rfl, rfl, rfl⟩

theorem trans (h : Keeps t t' d) (h' : Keeps t' t'' d) : Keeps t t'' d :=
  ⟨h'.dates.trans h.dates, h'.sids.trans h.sids, h'.table.trans h.table⟩

theorem addColumn {values : Block} (hd : key d ≠ key c) (h : t.addColumn c values = .ok t') : Keeps t t' d := by
  obtain ⟨-, -, rfl⟩ := addColumn_eq_ok.1 h
  exact ⟨rfl, rfl, by rw [Named.get?_insert, if_neg hd]⟩

theorem restate {x : Restatement} (hd : key d ≠ key c) (h : t.restate c x = .ok t') : Keeps t t' d := by
  obtain ⟨table, -, -, -, rfl⟩ := restate_eq_ok h
  exact ⟨rfl, rfl, by rw [Named.get?_insert, if_neg hd]⟩

theorem answer_eq (h : Keeps t t' d) (r : Request) : t'.answer r d = t.answer r d := by
  obtain ⟨hdates, hsids, htable⟩ := h
  unfold answer
  rw [htable]
  -- a history is made of one table and of the axes
  cases t
  cases t'
  cases hdates
  cases hsids
  rfl

theorem load_eq (h : ∀ d ∈ r.columns, Keeps t t' d) : t'.load r = t.load r := by
  rw [Tables.load_eq, Tables.load_eq, Checked.mapM_congr fun d hd => (h d hd).answer_eq r]

/-- Answers for a column and others hold the same history of it. -/
theorem get?_load (h : Keeps t t' d) {m m' : Loaded} (hm : t.load r = .ok m) (hm' : t'.load r = .ok m') :
    m'.get? d = m.get? d := by
  rw [Tables.load_eq] at hm hm'
  obtain ⟨hs, hhs, rfl⟩ := Checked.map_eq_ok.1 hm
  obtain ⟨hs', hhs', rfl⟩ := Checked.map_eq_ok.1 hm'
  refine Loaded.get?_extend_congr ?_ rfl
  rw [Checked.mapM_eq_ok] at hhs hhs'
  clear hm hm'
  -- column by column, in the order of the request
  generalize r.columns = columns at hhs hhs'
  induction hhs generalizing hs' with
  | nil => exact .nil
  | @cons c x columns hs hx _ ih =>
    obtain ⟨x', hs', hx', hrest, rfl⟩ := List.forall₂_cons_left_iff.1 hhs'
    refine .cons ⟨rfl, fun hc => ?_⟩ (ih hs' hrest)
    have hkeeps : Keeps t t' c := by
      have hkey : key d = key c := key_eq hc
      exact ⟨h.dates, h.sids, hkey ▸ h.table⟩
    rw [hkeeps.answer_eq, hx] at hx'
    exact (Except.ok.inj hx').symm

end Keeps

/-! ## Changes to other columns -/

/-- Tables that some columns were added to, or restatements of them. -/
inductive Changed (among : Column → Prop) : Tables → Tables → Prop
  | refl (t : Tables) : Changed among t t
  | addColumn {t t' t'' : Tables} {c : Column} {values : Block} (h : Changed among t t') (hc : among c)
      (ok : t'.addColumn c values = .ok t'') : Changed among t t''
  | restate {t t' t'' : Tables} {c : Column} {x : Restatement} (h : Changed among t t') (hc : among c)
      (ok : t'.restate c x = .ok t'') : Changed among t t''

theorem Changed.keeps {among : Column → Prop} (hd : ∀ c, among c → key d ≠ key c) (h : Changed among t t') :
    Keeps t t' d := by
  induction h with
  | refl => exact .refl _ d
  | addColumn _ hc ok ih => exact ih.trans (.addColumn (hd _ hc) ok)
  | restate _ hc ok ih => exact ih.trans (.restate (hd _ hc) ok)

/-- Columns and restatements that are added to other columns, of which none spills into a column or
is spilled into by it, leave it there or not there, and every request for it is answered as before. -/
theorem columns_apart {among : Column → Prop}
    (hnames : ∀ c, among c → c.dataset ≠ d.dataset ∨ c.name ≠ d.name)
    (hspills : ∀ c, among c → ¬Spills c d ∧ ¬Spills d c) (h : Changed among t t') :
    t'.has d = t.has d ∧ (∀ r, r.columns = [d] → t'.load r = t.load r) ∧
      ∀ r m m', t.load r = .ok m → t'.load r = .ok m' → m'.get? d = m.get? d := by
  have hkeys : ∀ c, among c → key d ≠ key c := by
    intro c hc hkey
    rcases key_eq_iff.1 hkey with ⟨hdataset, hname⟩ | hs | hs
    · exact (hnames c hc).elim (· hdataset.symm) (· hname.symm)
    · exact (hspills c hc).2 hs
    · exact (hspills c hc).1 hs
  have hkeeps := h.keeps hkeys
  refine ⟨?_, fun r hr => Keeps.load_eq fun c hc => ?_, fun r m m' hm hm' => hkeeps.get?_load hm hm'⟩
  · rw [has, has, hkeeps.table]
  · rw [hr] at hc
    exact List.mem_singleton.1 hc ▸ hkeeps

/-! Columns beside the rates, with points in their names. -/

/-- A column that has the name of the rates before a further point. -/
def rateNote : Column := ⟨"Rates.rate", "note", .int64, .int 0, .generic⟩

/-- The column of another data set that is kept under the text of that one. -/
def rateNoted : Column := ⟨"Rates", "rate.note", .int64, .int 0, .generic⟩

theorem columns_apart_rates : ∃ t, (rates [rateKnown 5 ⟨1⟩]).addColumn rateNote (.full (.int 7) (3, 1)) = .ok t ∧
    t.has rate = true ∧ t.thirdRate? [⟨0⟩, ⟨1⟩, ⟨2⟩] = some (.int 5) := by
  have hadd : (rates [rateKnown 5 ⟨1⟩]).addColumn rateNote (.full (.int 7) (3, 1)) = .ok
      ⟨[⟨0⟩, ⟨1⟩, ⟨2⟩], [⟨1⟩], (rates [rateKnown 5 ⟨1⟩]).tables.insert "Rates.rate.note" ⟨.full (.int 7) (3, 1), []⟩⟩ := rfl
  have hkey : key rateNote ≠ key rate := by decide
  have hspills : ¬Spills rateNote rate ∧ ¬Spills rate rateNote :=
    ⟨fun h => hkey (key_eq_iff.2 (.inr (.inl h))), fun h => hkey (key_eq_iff.2 (.inr (.inr h)))⟩
  have hchanged : Changed (· = rateNote) (rates [rateKnown 5 ⟨1⟩]) _ := .addColumn (.refl _) rfl hadd
  obtain ⟨hhas, halone, -⟩ := columns_apart (fun c hc => hc ▸ .inl (by decide)) (fun c hc => hc ▸ hspills) hchanged
  refine ⟨_, hadd, hhas, ?_⟩
  have hbefore : (rates [rateKnown 5 ⟨1⟩]).thirdRate? [⟨0⟩, ⟨1⟩, ⟨2⟩] = some (.int 5) := by cbv
  unfold thirdRate? at hbefore ⊢
  rwa [halone _ rfl]

/-- The number of an asset for a day that tables answer for a column. -/
def answered? (t : Tables) (c : Column) : Option Scalar :=
  (t.load (.unmasked [c] [⟨0⟩] [⟨1⟩])).toOption.bind
    (·.value? (.unmasked [c] [⟨0⟩] [⟨1⟩]) c ⟨0⟩ ⟨0⟩ ⟨1⟩)

/-- Of two columns that have no name in common one spills into the other: it is there once the
other is added, and the number that it had becomes the number of the other. -/
theorem spilled_column_replaces : rateNote.dataset ≠ rateNoted.dataset ∧ rateNote.name ≠ rateNoted.name ∧
    ∃ t t', (ofAxes [⟨0⟩] [⟨1⟩]).addColumn rateNote (.full (.int 7) (1, 1)) = .ok t ∧
      (ofAxes [⟨0⟩] [⟨1⟩]).has rateNoted = false ∧ t.has rateNoted = true ∧
      t.addColumn rateNoted (.full (.int 1) (1, 1)) = .ok t' ∧
      t.answered? rateNote = some (.int 7) ∧ t'.answered? rateNote = some (.int 1) := by
  refine ⟨by decide, by decide, ⟨[⟨0⟩], [⟨1⟩], [("Rates.rate.note", ⟨.full (.int 7) (1, 1), []⟩)]⟩,
    ⟨[⟨0⟩], [⟨1⟩], [("Rates.rate.note", ⟨.full (.int 1) (1, 1), []⟩)]⟩, rfl, rfl, rfl, rfl, ?_, ?_⟩
  · cbv
  · cbv

end Tables
end AsOf
