import AsOf.Proofs.Decimal.Distinct
import AsOf.Proofs.Named
import AsOf.Result.Export

/-!
# Texts of records

The text of a record determines the record. Each kind of text that it is put together from is clear:
it can be told from any other of its kind and from what follows it, as long as that does not begin
with a character that numbers and words are made of. Quoted texts end at their quote, numbers and
words where their characters end, and lists at the character that closes them.

* `Clear`: texts that can be told apart and from what follows them.
* `Clear.pair`, `Clear.list`: pairs and lists of what is clear are clear.
* `Exported.clear_quoted`, `Exported.clear_write`: quoted texts and values are clear.
* `Record.clear_write`, `Record.clear_writePretty`: records are clear, on one line and indented.
* `Result.toRecords_of_toJson`, `Result.toRecords_of_toPrettyJson`: results with one text have the same
  records.
-/
namespace AsOf

open Decimal

/-! ## Clear texts -/

/-- The characters of numbers and words. -/
def isToken (c : Char) : Bool := c.isAlpha || isNumeric c

/-- What does not go on with a number or a word. -/
def Stops (rest : List Char) : Prop := ∀ c cs, rest = c :: cs → isToken c = false

theorem stops_nil : Stops [] := nofun

theorem stops_cons {c : Char} {cs : List Char} (h : isToken c = false) : Stops (c :: cs) := by
  rintro c' cs' he
  obtain ⟨rfl, -⟩ := List.cons.inj he
  exact h

theorem Stops.takeWhile {rest : List Char} (h : Stops rest) : rest.takeWhile isToken = [] := by
  cases rest with
  | nil => rfl
  | cons c cs => exact List.takeWhile_cons_of_neg (by rw [h c cs rfl]; exact Bool.false_ne_true)

/-- Texts of good items can be told apart and from what follows them. -/
def Clear {α : Type} (text : α → List Char) (good : α → Prop) : Prop :=
  ∀ ⦃a b : α⦄ ⦃rest rest' : List Char⦄, good a → good b → Stops rest → Stops rest' →
    text a ++ rest = text b ++ rest' → a = b ∧ rest = rest'

namespace Clear

variable {α β : Type} {text : α → List Char} {other : β → List Char} {good : α → Prop} {fine : β → Prop}

theorem injective (h : Clear text good) {a b : α} (ha : good a) (hb : good b) (heq : text a = text b) : a = b :=
  (@h a b [] [] ha hb stops_nil stops_nil (congrArg (· ++ []) heq)).1

/-- Tokens that differ are clear. -/
theorem of_tokens (htoken : ∀ a, good a → ∀ c ∈ text a, isToken c = true)
    (hinj : ∀ a b, good a → good b → text a = text b → a = b) : Clear text good := by
  intro a b rest rest' ha hb hrest hrest' h
  have htexts := congrArg (List.takeWhile isToken) h
  rw [List.takeWhile_append_of_pos (htoken a ha), List.takeWhile_append_of_pos (htoken b hb), hrest.takeWhile,
    hrest'.takeWhile, List.append_nil, List.append_nil] at htexts
  refine ⟨hinj a b ha hb htexts, ?_⟩
  rw [htexts] at h
  exact List.append_cancel_left h

/-- Between fixed texts the second of which begins with no token. -/
theorem pair (h : Clear text good) (h' : Clear other fine) (first : List Char) {c : Char} (hc : isToken c = false)
    (between : List Char) : Clear (fun x : α × β => first ++ text x.1 ++ c :: between ++ other x.2)
      fun x => good x.1 ∧ fine x.2 := by
  rintro ⟨a, b⟩ ⟨a', b'⟩ rest rest' ⟨ha, hb⟩ ⟨ha', hb'⟩ hrest hrest' heq
  simp only [List.append_assoc, List.cons_append] at heq
  obtain ⟨rfl, hafter⟩ := h ha ha' (stops_cons hc) (stops_cons hc) (List.append_cancel_left heq)
  obtain ⟨rfl, rfl⟩ := h' hb hb' hrest hrest' (List.append_cancel_left (List.cons.inj hafter).2)
  exact ⟨rfl, rfl⟩

theorem intercalate_cons (sep first : List Char) (others : List (List Char)) :
    sep.intercalate (first :: others) = first ++ others.flatMap (sep ++ ·) := by
  induction others generalizing first with
  | nil => simp
  | cons second others ih =>
    rw [List.intercalate_cons_cons, ih, List.flatMap_cons]
    simp

/-- Items one after the other are clear if what stands between two of them and what closes them
begin with different characters, and no item begins as the latter. -/
theorem list (h : Clear text good) {s : Char} (sep : List Char) {c : Char} (close : List Char)
    (hs : isToken s = false) (hc : isToken c = false) (hsc : s ≠ c)
    (hstart : ∀ a, good a → ∃ d cs, text a = d :: cs ∧ d ≠ c) :
    Clear (fun xs : List α => (s :: sep).intercalate (xs.map text) ++ c :: close) fun xs => ∀ x ∈ xs, good x := by
  have hstops (xs : List α) (rest : List Char) :
      Stops (xs.flatMap (fun x => s :: sep ++ text x) ++ c :: (close ++ rest)) := by
    cases xs with
    | nil => exact stops_cons hc
    | cons x xs => exact stops_cons hs
  have htail {xs ys : List α} {rest rest' : List Char} (hx : ∀ x ∈ xs, good x) (hy : ∀ y ∈ ys, good y)
      (heq : xs.flatMap (fun x => s :: sep ++ text x) ++ c :: (close ++ rest) =
        ys.flatMap (fun y => s :: sep ++ text y) ++ c :: (close ++ rest')) : xs = ys ∧ rest = rest' := by
    induction xs generalizing ys with
    | nil =>
      cases ys with
      | nil => exact ⟨rfl, List.append_cancel_left (List.cons.inj heq).2⟩
      | cons y ys => exact absurd (List.cons.inj heq).1.symm hsc
    | cons x xs ih =>
      cases ys with
      | nil => exact absurd (List.cons.inj heq).1 hsc
      | cons y ys =>
        simp only [List.flatMap_cons, List.cons_append, List.append_assoc] at heq
        obtain ⟨rfl, hafter⟩ := h (hx x List.mem_cons_self) (hy y List.mem_cons_self) (hstops xs rest)
          (hstops ys rest') (List.append_cancel_left (List.cons.inj heq).2)
        obtain ⟨rfl, rfl⟩ := ih (fun x h => hx x (List.mem_cons_of_mem _ h))
          (fun y h => hy y (List.mem_cons_of_mem _ h)) hafter
        exact ⟨rfl, rfl⟩
  have hcons (x : α) (xs : List α) (rest : List Char) :
      (s :: sep).intercalate ((x :: xs).map text) ++ c :: close ++ rest =
        text x ++ (xs.flatMap (fun x => s :: sep ++ text x) ++ c :: (close ++ rest)) := by
    rw [List.map_cons, intercalate_cons, List.flatMap_map]
    simp only [List.append_assoc, List.cons_append]
  have hother (x : α) (hx : good x) (xs : List α) (rest rest' : List Char) :
      (s :: sep).intercalate ((x :: xs).map text) ++ c :: close ++ rest ≠
        (s :: sep).intercalate (([] : List α).map text) ++ c :: close ++ rest' := by
    obtain ⟨d, cs, hd, hne⟩ := hstart x hx
    rw [hcons, hd]
    exact fun he => hne (List.cons.inj he).1
  intro xs ys rest rest' hx hy _ _ heq
  cases xs with
  | nil =>
    cases ys with
    | nil => exact ⟨rfl, List.append_cancel_left heq⟩
    | cons y ys => exact absurd heq.symm (hother y (hy y List.mem_cons_self) ys rest' rest)
  | cons x xs =>
    cases ys with
    | nil => exact absurd heq (hother x (hx x List.mem_cons_self) xs rest rest')
    | cons y ys =>
      simp only [hcons] at heq
      obtain ⟨rfl, hafter⟩ := h (hx x List.mem_cons_self) (hy y List.mem_cons_self) (hstops xs rest)
        (hstops ys rest') heq
      obtain ⟨rfl, rfl⟩ := htail (fun x h => hx x (List.mem_cons_of_mem _ h))
        (fun y h => hy y (List.mem_cons_of_mem _ h)) hafter
      exact ⟨rfl, rfl⟩

end Clear

/-! ## Quoted texts -/

namespace Exported

/-- The number of a hexadecimal digit. -/
def hexValue (c : Char) : Nat := if c.isDigit then c.toNat - 48 else c.toNat - 87

/-- Takes a character off the front of a quoted text. -/
def unescape? : List Char → Option (Char × List Char)
  | '\\' :: 'u' :: _ :: _ :: a :: b :: rest => some (Char.ofNat (16 * hexValue a + hexValue b), rest)
  | '\\' :: c :: rest =>
    some (if c = 'n' then '\n' else if c = 'r' then '\r' else if c = 't' then '\t'
      else if c = 'b' then Char.ofNat 8 else if c = 'f' then Char.ofNat 12 else c, rest)
  | c :: rest => some (c, rest)
  | [] => none

theorem hexValue_digitChar : ∀ n < 16, hexValue n.digitChar = n := by decide

theorem toList_hex {n : Nat} (h : n < 32) :
    (if n < 0x10 then "0" else "").toList ++ (Text.hex n).toList = [(n / 16).digitChar, (n % 16).digitChar] := by
  rw [Text.hex, String.toList_ofList]
  by_cases hn : n < 16
  · rw [if_pos hn, Nat.toDigits_of_lt_base hn, Nat.div_eq_of_lt hn, Nat.mod_eq_of_lt hn]
    rfl
  · rw [if_neg hn, Nat.toDigits_of_base_le (by decide) (by omega), Nat.toDigits_of_lt_base (by omega)]
    rfl

/-- Characters are read off as they were put in. -/
theorem unescape?_escape (c : Char) (rest : List Char) : unescape? ((escape c).toList ++ rest) = some (c, rest) := by
  unfold escape
  split
  · rename_i h
    rw [h]
    rfl
  split
  · rename_i h
    rw [h]
    rfl
  split
  · rename_i h
    rw [h]
    rfl
  split
  · rename_i h
    rw [h]
    rfl
  split
  · rename_i h
    rw [h]
    rfl
  split
  · rename_i h
    have hc : c = Char.ofNat 8 := by rw [← h, Char.ofNat_toNat]
    rw [hc]
    rfl
  split
  · rename_i h
    have hc : c = Char.ofNat 12 := by rw [← h, Char.ofNat_toNat]
    rw [hc]
    rfl
  split
  · rename_i h
    have hhex := toList_hex h
    have htext : ("\\u00" ++ (if c.toNat < 0x10 then "0" else "") ++ Text.hex c.toNat).toList =
        ['\\', 'u', '0', '0', (c.toNat / 16).digitChar, (c.toNat % 16).digitChar] := by
      rw [String.toList_append, String.toList_append, List.append_assoc, hhex]
      rfl
    rw [htext]
    show some (Char.ofNat (16 * hexValue (c.toNat / 16).digitChar + hexValue (c.toNat % 16).digitChar), rest) = _
    rw [hexValue_digitChar _ (by omega), hexValue_digitChar _ (by omega), Nat.div_add_mod, Char.ofNat_toNat]
  · rename_i hslash _ _ _ _ _ _
    show unescape? (c.toString.toList ++ rest) = _
    rw [Char.toString, String.toList_singleton, List.singleton_append]
    unfold unescape?
    split
    · exact absurd (List.cons.inj ‹_›).1 hslash
    · exact absurd (List.cons.inj ‹_›).1 hslash
    · obtain ⟨rfl, rfl⟩ := List.cons.inj ‹_›
      rfl
    · cases ‹c :: rest = []›

/-- No character begins as the quote that ends the text. -/
theorem escape_ne_quote (c : Char) (rest cs : List Char) : (escape c).toList ++ rest ≠ '"' :: cs := by
  intro h
  have hread := unescape?_escape c rest
  rw [h] at hread
  obtain ⟨rfl, -⟩ := Prod.mk.inj (Option.some.inj hread)
  exact absurd (List.cons.inj h).1 (by decide)

theorem toList_quoted (s : String) : (quoted s).toList = '"' :: (s.toList.flatMap (fun c => (escape c).toList) ++ ['"']) := by
  simp [quoted, List.flatMap_map]

theorem clear_quoted : Clear (fun s => (quoted s).toList) fun _ => True := by
  have main {cs ds rest rest' : List Char} (h : cs.flatMap (fun c => (escape c).toList) ++ '"' :: rest =
      ds.flatMap (fun c => (escape c).toList) ++ '"' :: rest') : cs = ds ∧ rest = rest' := by
    induction cs generalizing ds with
    | nil =>
      cases ds with
      | nil => exact ⟨rfl, (List.cons.inj h).2⟩
      | cons d ds =>
        rw [List.flatMap_cons, List.append_assoc] at h
        exact absurd h.symm (escape_ne_quote d _ rest)
    | cons c cs ih =>
      cases ds with
      | nil =>
        rw [List.flatMap_cons, List.append_assoc] at h
        exact absurd h (escape_ne_quote c _ rest')
      | cons d ds =>
        have hread := congrArg unescape? h
        rw [List.flatMap_cons, List.flatMap_cons, List.append_assoc, List.append_assoc, unescape?_escape,
          unescape?_escape] at hread
        obtain ⟨rfl, hrest⟩ := Prod.mk.inj (Option.some.inj hread)
        obtain ⟨rfl, rfl⟩ := ih hrest
        exact ⟨rfl, rfl⟩
  intro s t rest rest' _ _ _ _ h
  simp only [toList_quoted, List.cons_append, List.append_assoc, List.nil_append] at h
  obtain ⟨hst, rfl⟩ := main (List.cons.inj h).2
  exact ⟨String.toList_inj.1 hst, rfl⟩

/-! ## Values -/

/-- What a record can hold. -/
def Proper : Exported → Prop
  | number x => x.isFinite = true
  | _ => True

theorem proper_ofScalar (v : Scalar) : (ofScalar v).Proper := by
  cases v with
  | float x =>
    rw [ofScalar]
    split
    · exact ‹x.isFinite = true›
    · trivial
  | int => trivial
  | bool => trivial
  | time t =>
    rw [ofScalar]
    split <;> trivial
  | label l => cases l <;> trivial

theorem toList_int (n : Int) : (toString n).toList =
    (if n < 0 then ['-'] else []) ++ Nat.toDigits 10 n.natAbs := by
  rw [Int.toString_eq_repr, Int.repr_eq_if]
  by_cases h : n < 0
  · rw [if_neg (Int.not_le.2 h), if_pos h, String.toList_append, Nat.toList_repr,
      show (-n).toNat = n.natAbs by omega]
    rfl
  · rw [if_pos (Int.not_lt.1 h), if_neg h, Nat.toList_repr, show n.toNat = n.natAbs by omega]
    rfl

/-- A numeral begins with a digit or a minus. -/
structure Numeral (cs : List Char) : Prop where
  head : ∃ c rest, cs = c :: rest ∧ (c.isDigit = true ∨ c = '-')
  numeric : ∀ c ∈ cs, isNumeric c = true

theorem Numeral.of_sign (p : Prop) [Decidable p] {body : List Char} (hb : Body body) :
    Numeral ((if p then ['-'] else []) ++ body) := by
  split
  · exact ⟨⟨_, _, rfl, .inr rfl⟩, List.forall_mem_cons.2 ⟨rfl, hb.numeric⟩⟩
  · obtain ⟨c, rest, hbody, hc⟩ := hb.head
    exact ⟨⟨c, rest, hbody, .inl hc⟩, hb.numeric⟩

theorem body_toDigits (n : Nat) : Body (Nat.toDigits 10 n) := by
  obtain ⟨c, cs, hcs⟩ := List.exists_cons_of_ne_nil (Nat.toDigits_ne_nil (n := n) (b := 10))
  exact ⟨⟨c, cs, hcs, isDigit_of_mem_toDigits (hcs ▸ List.mem_cons_self)⟩,
    fun c hc => isNumeric_of_isDigit (isDigit_of_mem_toDigits hc)⟩

theorem numeral_int (n : Int) : Numeral (toString n).toList := by
  rw [toList_int]
  exact .of_sign _ (body_toDigits _)

theorem not_marked_int (n : Int) : ¬Marked (toString n).toList := by
  have hdigits {c : Char} (hc : c.isDigit = false) (hne : c ≠ '-') : c ∉ (toString n).toList := by
    intro h
    rw [toList_int] at h
    rcases List.mem_append.1 h with h | h
    · split at h
      · exact hne (List.mem_singleton.1 h)
      · cases h
    · rw [isDigit_of_mem_toDigits h] at hc
      cases hc
  exact fun h => h.elim (hdigits rfl (by decide)) (hdigits rfl (by decide))

theorem numeral_number {x : Float} (hx : x.isFinite = true) :
    Numeral (Decimal.exported.write x).toList ∧ Marked (Decimal.exported.write x).toList := by
  obtain ⟨body, htext, hbody, -, hmarked⟩ := exists_body Decimal.exported hx
  rw [htext]
  exact ⟨.of_sign _ hbody, (hmarked rfl).imp (List.mem_append_right _) (List.mem_append_right _)⟩

/-- What a text of a value is, by how it begins and by its marks. -/
def kindOf (cs : List Char) : Nat :=
  if cs.head? = some 'n' then 0
  else if cs.head? = some 't' ∨ cs.head? = some 'f' then 1
  else if cs.head? = some '"' then 4
  else if '.' ∈ cs ∨ 'e' ∈ cs then 3 else 2

theorem Numeral.kindOf_eq {cs : List Char} (h : Numeral cs) : kindOf cs = if '.' ∈ cs ∨ 'e' ∈ cs then 3 else 2 := by
  obtain ⟨c, rest, rfl, hc⟩ := h.head
  have hne {d : Char} (hd : d.isDigit = false) (hd' : d ≠ '-') : (c :: rest).head? ≠ some d := by
    rintro ⟨⟩
    rcases hc with hc | hc
    · rw [hd] at hc
      cases hc
    · exact hd' hc
  rw [kindOf, if_neg (hne rfl (by decide)), if_neg (not_or_intro (hne rfl (by decide)) (hne rfl (by decide))),
    if_neg (hne rfl (by decide))]

theorem kindOf_write {v : Exported} (hv : v.Proper) : kindOf v.write.toList = v.ctorIdx := by
  cases v with
  | null => rfl
  | bool b => cases b <;> rfl
  | int n => exact (numeral_int n).kindOf_eq.trans (if_neg (not_marked_int n))
  | number x => exact (numeral_number hv).1.kindOf_eq.trans (if_pos (numeral_number hv).2)
  | text s =>
    show kindOf (quoted s).toList = 4
    rw [toList_quoted]
    rfl

/-- Different values have different texts. -/
theorem write_injective {a b : Exported} (ha : a.Proper) (hb : b.Proper) (h : a.write = b.write) : a = b := by
  have hkind : a.ctorIdx = b.ctorIdx := by rw [← kindOf_write ha, ← kindOf_write hb, h]
  -- values of one kind are left
  cases a <;> cases b <;> try cases hkind
  · rfl
  · rename_i b b'
    cases b <;> cases b' <;> first | rfl | cases congrArg String.length h
  · rw [Int.repr_inj.1 h]
  · rw [Decimal.write_injective ha hb h]
  · rename_i s t
    rw [clear_quoted.injective trivial trivial (congrArg String.toList h)]

theorem isToken_of_isNumeric {c : Char} (h : isNumeric c = true) : isToken c = true := by
  rw [isToken, h, Bool.or_true]

/-- Values are numbers and words, or quoted texts. -/
theorem token_or_text {v : Exported} (hv : v.Proper) :
    (v.write.toList ≠ [] ∧ ∀ c ∈ v.write.toList, isToken c = true) ∨ ∃ s, v = text s := by
  have hnumeral {cs : List Char} (h : Numeral cs) : cs ≠ [] ∧ ∀ c ∈ cs, isToken c = true := by
    obtain ⟨c, rest, hcs, -⟩ := h.head
    exact ⟨hcs ▸ List.cons_ne_nil c rest, fun c hc => isToken_of_isNumeric (h.numeric c hc)⟩
  cases v with
  | null => exact .inl ⟨List.cons_ne_nil _ _, List.all_eq_true.1 rfl⟩
  | bool b => cases b <;> exact .inl ⟨List.cons_ne_nil _ _, List.all_eq_true.1 rfl⟩
  | int n => exact .inl (hnumeral (numeral_int n))
  | number x => exact .inl (hnumeral (numeral_number hv).1)
  | text s => exact .inr ⟨s, rfl⟩

theorem clear_write : Clear (fun v => v.write.toList) Proper := by
  have hquote {s : String} {cs rest rest' : List Char} (hne : cs ≠ []) (hcs : ∀ c ∈ cs, isToken c = true) :
      (quoted s).toList ++ rest ≠ cs ++ rest' := by
    obtain ⟨c, cs, rfl⟩ := List.exists_cons_of_ne_nil hne
    intro h
    rw [toList_quoted] at h
    obtain ⟨rfl, -⟩ := List.cons.inj h
    cases hcs _ List.mem_cons_self
  intro a b rest rest' ha hb hrest hrest' h
  rcases token_or_text ha with ⟨hne, htoken⟩ | ⟨s, rfl⟩
  · rcases token_or_text hb with ⟨-, htoken'⟩ | ⟨t, rfl⟩
    · let good (v : Exported) : Prop := v.Proper ∧ ∀ c ∈ v.write.toList, isToken c = true
      have hclear : Clear (fun v => v.write.toList) good := .of_tokens (fun v hv => hv.2) fun v w hv hw h =>
        write_injective hv.1 hw.1 (String.toList_inj.1 h)
      exact hclear ⟨ha, htoken⟩ ⟨hb, htoken'⟩ hrest hrest' h
    · exact absurd h.symm (hquote hne htoken)
  · rcases token_or_text hb with ⟨hne, htoken⟩ | ⟨t, rfl⟩
    · exact absurd h (hquote hne htoken)
    · obtain ⟨rfl, hrests⟩ := clear_quoted trivial trivial hrest hrest' h
      exact ⟨rfl, hrests⟩

end Exported

/-! ## Records -/

namespace Clear

variable {α : Type} {text other : α → List Char} {good fine : α → Prop}

/-- After a fixed text. -/
theorem after (h : Clear text good) (first : List Char) : Clear (fun a => first ++ text a) good := by
  intro a b rest rest' ha hb hrest hrest' heq
  simp only [List.append_assoc] at heq
  exact h ha hb hrest hrest' (List.append_cancel_left heq)

theorem congr (h : Clear text good) (ho : ∀ a, fine a → other a = text a) (hf : ∀ a, fine a → good a) :
    Clear other fine := by
  intro a b rest rest' ha hb hrest hrest' heq
  rw [ho a ha, ho b hb] at heq
  exact h (hf a ha) (hf b hb) hrest hrest' heq

end Clear

open Exported

namespace Record

/-- Every value can be held. -/
def Proper (r : Record) : Prop := ∀ x ∈ r, x.2.Proper

/-- The text of one key and its value, between fixed texts. -/
def member (first between : List Char) (x : String × Exported) : List Char :=
  first ++ (quoted x.1).toList ++ ':' :: between ++ x.2.write.toList

theorem clear_member (first between : List Char) : Clear (member first between) fun x => x.2.Proper :=
  (clear_quoted.pair clear_write first rfl between).congr (fun _ _ => rfl) fun _ h => ⟨trivial, h⟩

theorem toList_write (r : Record) : r.write.toList =
    '\x7b' :: ([','].intercalate (r.map (member [] [])) ++ ['\x7d']) := by
  have hmember : (fun x : String × Exported => (quoted x.1 ++ ":" ++ x.2.write).toList) = member [] [] := by
    funext x
    simp [member]
  rw [write, String.toList_append, String.toList_append, String.toList_intercalate, List.map_map, ← hmember]
  rfl

theorem toList_writePretty {r : Record} (hr : r ≠ []) : r.writePretty.toList =
    "  \x7b\n".toList ++
      ([',', '\n'].intercalate (r.map (member "    ".toList [' '])) ++ '\n' :: "  \x7d".toList) := by
  have hmember : (fun x : String × Exported => ("    " ++ quoted x.1 ++ ": " ++ x.2.write).toList) =
      member "    ".toList [' '] := by
    funext x
    simp [member]
  rw [writePretty, if_neg (by simpa using hr), String.toList_append, String.toList_append, String.toList_intercalate,
    List.map_map, ← hmember, List.append_assoc]
  rfl

theorem clear_write : Clear (fun r => (Record.write r).toList) Proper := by
  have hmembers := (clear_member [] []).list (s := ',') [] (c := '\x7d') [] rfl rfl (by decide)
    fun x _ => ⟨'"', _, by rw [member, toList_quoted]; rfl, by decide⟩
  exact (hmembers.after ['\x7b']).congr (fun r _ => toList_write r) fun _ h => h

theorem clear_writePretty : Clear (fun r => (Record.writePretty r).toList) fun r => r ≠ [] ∧ Proper r := by
  have hmembers := (clear_member "    ".toList [' ']).list (s := ',') ['\n'] (c := '\n') "  \x7d".toList rfl rfl
    (by decide) fun x _ => ⟨' ', _, rfl, by decide⟩
  exact (hmembers.after "  \x7b\n".toList).congr (fun r h => toList_writePretty h.1) fun _ h => h.2

end Record

namespace Result

variable {r r' : Result}

/-- Records have keys, and values that they can hold. -/
theorem proper_toRecords {x : Record} (hx : x ∈ r.toRecords) : x ≠ [] ∧ x.Proper := by
  obtain ⟨⟨d, s, values⟩, -, rfl⟩ := List.mem_map.1 hx
  refine ⟨Named.ofList_ne_nil (List.cons_ne_nil _ _), fun y hy => ?_⟩
  rcases List.mem_cons.1 (Named.mem_ofList hy) with rfl | hy
  · trivial
  rcases List.mem_cons.1 hy with rfl | hy
  · trivial
  obtain ⟨v, -, rfl⟩ := List.mem_map.1 hy
  exact proper_ofScalar v.2

/-- Results with one text have the same records. -/
theorem toRecords_of_toJson (h : r.toJson = r'.toJson) : r.toRecords = r'.toRecords := by
  have hlist := Record.clear_write.list (s := ',') [] (c := ']') [] rfl rfl (by decide)
    fun x _ => ⟨'\x7b', _, Record.toList_write x, by decide⟩
  have htext (r : Result) : r.toJson.toList =
      '[' :: ([','].intercalate (r.toRecords.map fun x => x.write.toList) ++ [']']) := by
    rw [toJson, String.toList_append, String.toList_append, String.toList_intercalate, List.map_map]
    rfl
  have heq := congrArg String.toList h
  rw [htext, htext] at heq
  exact hlist.injective (fun x hx => (proper_toRecords hx).2)
    (fun x hx => (proper_toRecords hx).2) (List.cons.inj heq).2

theorem toRecords_of_toPrettyJson (h : r.toPrettyJson = r'.toPrettyJson) : r.toRecords = r'.toRecords := by
  have hlist := Record.clear_writePretty.list (s := ',') ['\n'] (c := '\n') [']'] rfl rfl (by decide)
    fun x hx => ⟨' ', _, Record.toList_writePretty hx.1, by decide⟩
  have hnone {r : Result} (hr : r.toRecords = []) : r.toPrettyJson.toList = ['[', ']'] := by
    rw [toPrettyJson, hr]
    rfl
  have hsome {r : Result} (hr : r.toRecords ≠ []) : r.toPrettyJson.toList = '[' :: '\n' ::
      ([',', '\n'].intercalate (r.toRecords.map fun x => x.writePretty.toList) ++ ['\n', ']']) := by
    obtain ⟨x, xs, hx⟩ := List.exists_cons_of_ne_nil hr
    rw [toPrettyJson, hx]
    simp only
    rw [String.toList_append, String.toList_append, String.toList_intercalate, List.map_map]
    rfl
  have heq := congrArg String.toList h
  by_cases hr : r.toRecords = []
  · by_cases hr' : r'.toRecords = []
    · rw [hr, hr']
    · rw [hnone hr, hsome hr'] at heq
      cases heq
  · by_cases hr' : r'.toRecords = []
    · rw [hsome hr, hnone hr'] at heq
      cases heq
    · rw [hsome hr, hsome hr'] at heq
      exact hlist.injective (fun x => proper_toRecords) (fun x => proper_toRecords)
        (List.cons.inj (List.cons.inj heq).2).2

end Result
end AsOf
