import AsOf.Calendar.Sessions
import Mathlib.Data.List.Pairwise

/-!
# Calendars in order

A calendar is well formed when its sessions ascend and are days that there are, as those
of `Calendar.ofDates` do. Halving then finds where sessions before a day end, and so the
sessions of a range of days.

* `partitionPoint_spec`: halving finds the end of what satisfies the test.
* `Calendar.ofDates_wellFormed`: calendars made of days are well formed.
* `Calendar.WellFormed.size_lt`: a calendar has fewer sessions than a word can count.
-/
namespace AsOf

/-! ## Halving -/

variable {α : Type} {p : α → Bool} {xs : Array α}

/-- Below what satisfies the test, all does. -/
def Leading (p : α → Bool) (xs : Array α) : Prop :=
  ∀ (i j : Nat) (x y : α), i ≤ j → xs[i]? = some x → xs[j]? = some y → p y = true → p x = true

theorem narrow_spec (hp : Leading p xs) (base size : Nat) (h0 : 0 < size) (hs : base + size ≤ xs.size)
    (hlow : ∀ (i : Nat) (x : α), i < base → xs[i]? = some x → p x = true)
    (hhigh : ∀ (i : Nat) (x : α), base + size ≤ i → xs[i]? = some x → p x = false) :
    narrow p xs base size ≤ xs.size ∧
      ∀ (i : Nat) (x : α), xs[i]? = some x → (p x = true ↔ i < narrow p xs base size) := by
  induction size using Nat.strongRecOn generalizing base with
  | ind size ih =>
    rw [narrow]
    have hget {i : Nat} (hi : i < xs.size) : xs[i]? = some xs[i] := Array.getElem?_eq_getElem hi
    by_cases h1 : size ≤ 1
    · rw [if_pos h1, hget (by omega : base < xs.size), Option.any_some]
      cases hb : p xs[base] with
      | true =>
        refine ⟨by simp; omega, fun i x hx => ⟨fun h => ?_, fun h => ?_⟩⟩
        · refine Classical.byContradiction fun hn => ?_
          have : base + 1 ≤ i := by simpa using hn
          rw [hhigh i x (by omega) hx] at h
          cases h
        · exact hp i base x _ (by simpa using Nat.le_of_lt_succ (by simpa using h)) hx (hget (by omega)) hb
      | false =>
        refine ⟨by simp; omega, fun i x hx => ⟨fun h => ?_, fun h => hlow i x (by simpa using h) hx⟩⟩
        refine Classical.byContradiction fun hn => ?_
        have : base ≤ i := by simpa using hn
        rw [hp base i _ x this (hget (by omega)) hx h] at hb
        cases hb
    · rw [if_neg h1]
      have hmid : base + size / 2 < xs.size := by omega
      simp only [hget hmid, Option.any_some]
      cases hb : p xs[base + size / 2] with
      | true =>
        refine ih _ (by omega) (base + size / 2) (by omega) (by omega) (fun i x hi hx => ?_)
          (fun i x hi hx => hhigh i x (by omega) hx)
        exact hp i _ x _ (Nat.le_of_lt hi) hx (hget hmid) hb
      | false =>
        refine ih _ (by omega) base (by omega) (by omega) hlow (fun i x hi hx => ?_)
        refine Bool.eq_false_iff.2 fun hx' => ?_
        rw [hp _ i _ x (by omega) (hget hmid) hx hx'] at hb
        cases hb

/-- Where the items that satisfy the test come first, halving finds where they end. -/
theorem partitionPoint_spec (hp : Leading p xs) :
    partitionPoint p xs ≤ xs.size ∧
      ∀ (i : Nat) (x : α), xs[i]? = some x → (p x = true ↔ i < partitionPoint p xs) := by
  rw [partitionPoint]
  by_cases he : xs.isEmpty = true
  · rw [if_pos he]
    have hs : xs.size = 0 := by simpa using he
    refine ⟨Nat.zero_le _, fun i x hx => ?_⟩
    rw [Array.getElem?_eq_none (by omega)] at hx
    cases hx
  · rw [if_neg he]
    have hs : 0 < xs.size := by
      rw [Array.isEmpty_iff_size_eq_zero] at he
      omega
    refine narrow_spec hp 0 xs.size hs (by omega) (fun i x hi _ => absurd hi (Nat.not_lt_zero i)) ?_
    intro i x hi hx
    rw [Array.getElem?_eq_none (by omega)] at hx
    cases hx

/-! ## Days in order -/

namespace Date

theorem lt_iff {a b : Date} : a < b ↔ a.day < b.day := Iff.rfl

theorem le_iff {a b : Date} : a ≤ b ↔ a.day ≤ b.day := Iff.rfl

theorem lt_irrefl (d : Date) : ¬d < d := Int.lt_irrefl d.day

end Date

/-- Days that ascend. -/
def Ascending (dates : List Date) : Prop := dates.Pairwise (· < ·)

/-- Among days that ascend, those before a day come first. -/
theorem Ascending.leading {dates : Array Date} (h : Ascending dates.toList) {test : Date → Bool}
    (ht : ∀ a b : Date, a < b → test b = true → test a = true) : Leading test dates := by
  intro i j x y hij hx hy hty
  rcases Nat.eq_or_lt_of_le hij with rfl | hlt
  · rw [hx] at hy
    rwa [Option.some.inj hy]
  · rw [← Array.getElem?_toList] at hx hy
    obtain ⟨hi, rfl⟩ := List.getElem?_eq_some_iff.1 hx
    obtain ⟨hj, rfl⟩ := List.getElem?_eq_some_iff.1 hy
    exact ht _ _ (List.pairwise_iff_getElem.1 h i j hi hj hlt) hty

theorem partitionPoint_lt {dates : Array Date} (h : Ascending dates.toList) (d : Date) :
    partitionPoint (· < d) dates ≤ dates.size ∧
      ∀ (i : Nat) (x : Date), dates[i]? = some x → (x < d ↔ i < partitionPoint (· < d) dates) := by
  have := partitionPoint_spec (@Ascending.leading _ h (· < d) fun a b hab hb => by
    simp only [decide_eq_true_eq, Date.lt_iff] at *
    omega)
  exact ⟨this.1, fun i x hx => by rw [← this.2 i x hx, decide_eq_true_iff]⟩

theorem partitionPoint_le {dates : Array Date} (h : Ascending dates.toList) (d : Date) :
    partitionPoint (· ≤ d) dates ≤ dates.size ∧
      ∀ (i : Nat) (x : Date), dates[i]? = some x → (x ≤ d ↔ i < partitionPoint (· ≤ d) dates) := by
  have := partitionPoint_spec (@Ascending.leading _ h (· ≤ d) fun a b hab hb => by
    simp only [decide_eq_true_eq, Date.lt_iff, Date.le_iff] at *
    omega)
  exact ⟨this.1, fun i x hx => by rw [← this.2 i x hx, decide_eq_true_iff]⟩

namespace Ascending

variable {dates : List Date} (h : Ascending dates) (d : Date)

include h

theorem rank_lt : partitionPoint (· < d) dates.toArray ≤ dates.length ∧
    ∀ (i : Nat) (x : Date), dates[i]? = some x → (x < d ↔ i < partitionPoint (· < d) dates.toArray) := by
  have hrank := @partitionPoint_lt dates.toArray h d
  exact ⟨hrank.1, fun i x hx => hrank.2 i x (by rw [List.getElem?_toArray]; exact hx)⟩

theorem rank_le : partitionPoint (· ≤ d) dates.toArray ≤ dates.length ∧
    ∀ (i : Nat) (x : Date), dates[i]? = some x → (x ≤ d ↔ i < partitionPoint (· ≤ d) dates.toArray) := by
  have hrank := @partitionPoint_le dates.toArray h d
  exact ⟨hrank.1, fun i x hx => hrank.2 i x (by rw [List.getElem?_toArray]; exact hx)⟩

end Ascending

/-- Days that ascend do not outnumber those between their bounds. -/
theorem Ascending.length_le {dates : List Date} (h : Ascending dates) {lo hi : Int} (hl : lo ≤ hi + 1)
    (hb : ∀ d ∈ dates, lo ≤ d.day ∧ d.day ≤ hi) : (dates.length : Int) ≤ hi - lo + 1 := by
  induction dates generalizing lo with
  | nil =>
    rw [List.length_nil]
    omega
  | cons d dates ih =>
    obtain ⟨hd, h⟩ := List.pairwise_cons.1 h
    have hdb := hb d List.mem_cons_self
    have := @ih h (d.day + 1) (by omega) fun x hx => by
      have h1 := Date.lt_iff.1 (hd x hx)
      have h2 := hb x (List.mem_cons_of_mem _ hx)
      omega
    rw [List.length_cons]
    omega

/-! ## Calendars -/

namespace Calendar

/-- The sessions ascend, and are days that there are. -/
structure WellFormed (c : Calendar) : Prop where
  ascending : Ascending c.sessions.toList
  bounded : ∀ d ∈ c.sessions, Date.earliest ≤ d ∧ d ≤ Date.latest

theorem WellFormed.size_lt {c : Calendar} (h : c.WellFormed) : c.sessions.size < 0x4000000000000000 := by
  have := @Ascending.length_le _ h.ascending Date.earliest.day Date.latest.day (by decide)
    fun d hd => by
      have := h.bounded d (Array.mem_toList_iff.1 hd)
      exact ⟨Date.le_iff.1 this.1, Date.le_iff.1 this.2⟩
  rw [Array.length_toList] at this
  have hle : Date.latest.day - Date.earliest.day + 1 < 0x4000000000000000 := by decide
  omega

theorem mem_dropRepeats {dates : List Date} {d : Date} (h : d ∈ dropRepeats dates) : d ∈ dates := by
  fun_induction dropRepeats dates with
  | case1 b rest ih => exact List.mem_cons_of_mem _ (ih h)
  | case2 a b rest hab ih =>
    rcases List.mem_cons.1 h with rfl | h
    · exact List.mem_cons_self
    · exact List.mem_cons_of_mem _ (ih h)
  | case3 ds hds => exact h

theorem ascending_dropRepeats {dates : List Date} (h : dates.Pairwise (· ≤ ·)) :
    Ascending (dropRepeats dates) := by
  fun_induction dropRepeats dates with
  | case1 b rest ih => exact ih (List.pairwise_cons.1 h).2
  | case2 a b rest hab ih =>
    obtain ⟨ha, h⟩ := List.pairwise_cons.1 h
    refine List.pairwise_cons.2 ⟨fun d hd => ?_, ih h⟩
    have hlt : a < b := by
      have h1 := Date.le_iff.1 (ha b List.mem_cons_self)
      have h2 : a.day ≠ b.day := fun e => hab (by cases a; cases b; exact congrArg Date.mk e)
      exact Date.lt_iff.2 (by omega)
    have hbd : b ≤ d := by
      rcases List.mem_cons.1 (mem_dropRepeats hd) with rfl | hd
      · exact Int.le_refl _
      · exact (List.pairwise_cons.1 h).1 d hd
    exact Int.lt_of_lt_of_le hlt hbd
  | case3 ds hds =>
    match ds, hds with
    | [], _ => exact List.Pairwise.nil
    | [d], _ => exact List.pairwise_singleton _ _
    | a :: b :: rest, hds => exact absurd rfl (hds a b rest)

/-- Calendars made of days are well formed. -/
theorem ofDates_wellFormed (name : String) {dates : List Date}
    (h : ∀ d ∈ dates, Date.earliest ≤ d ∧ d ≤ Date.latest) : (ofDates name dates).WellFormed where
  ascending := by
    refine ascending_dropRepeats ?_
    have := @List.pairwise_mergeSort _ (fun a b : Date => decide (a ≤ b))
      (fun a b c hab hbc => by
        simp only [decide_eq_true_eq, Date.le_iff] at *
        omega)
      (fun a b => by
        simp only [Bool.or_eq_true, decide_eq_true_eq, Date.le_iff]
        omega) dates
    exact this.imp fun h => of_decide_eq_true h
  bounded d hd := h d (List.mem_mergeSort.1 (mem_dropRepeats (List.mem_toArray.1 hd)))

end Calendar
end AsOf
