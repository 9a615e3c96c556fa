import AsOf.Proofs.Run.Chunked

/-!
# Universes of lifetimes

Lifetimes list the assets in ascending order, each with its intervals, however they were
put together. Whether an asset is alive on a day depends on nothing but the day and the
asset.

* `Lifetimes.ordered_ofList`: the assets ascend.
* `Lifetimes.pointwise`: the universe of lifetimes tells of every day and asset by itself.
-/
namespace AsOf.Lifetimes

variable {m : Lifetimes} {sid : Sid} {date : Date}

/-- The assets ascend. -/
def Ordered (m : Lifetimes) : Prop := m.Pairwise fun a b => a.1 < b.1

/-- An interval of the asset covers the day. -/
def Covers (m : Lifetimes) (sid : Sid) (date : Date) : Prop :=
  ∃ x ∈ m, x.1 = sid ∧ ∃ interval ∈ x.2, interval.1 ≤ date ∧ date ≤ interval.2

theorem mem_keys_add {interval : Interval} {x : Sid × List Interval} (h : x ∈ m.add sid interval) :
    x.1 = sid ∨ ∃ y ∈ m, y.1 = x.1 := by
  induction m with
  | nil => exact .inl (congrArg Prod.fst (List.mem_singleton.1 h))
  | cons y m ih =>
    obtain ⟨s, is⟩ := y
    rw [add] at h
    split at h
    · rcases List.mem_cons.1 h with rfl | h
      · exact .inl rfl
      · exact .inr ⟨x, h, rfl⟩
    · split at h
      · rcases List.mem_cons.1 h with rfl | h
        · exact .inr ⟨_, List.mem_cons_self, rfl⟩
        · exact .inr ⟨x, List.mem_cons_of_mem _ h, rfl⟩
      · rcases List.mem_cons.1 h with rfl | h
        · exact .inr ⟨_, List.mem_cons_self, rfl⟩
        · obtain h | ⟨y, hy, hyx⟩ := ih h
          · exact .inl h
          · exact .inr ⟨y, List.mem_cons_of_mem _ hy, hyx⟩

theorem Ordered.add (h : m.Ordered) (sid : Sid) (interval : Interval) : (m.add sid interval).Ordered := by
  induction m with
  | nil => exact List.pairwise_singleton _ _
  | cons y m ih =>
    obtain ⟨s, is⟩ := y
    obtain ⟨hs, hm⟩ := List.pairwise_cons.1 h
    rw [Lifetimes.add]
    split
    · rename_i hlt
      refine List.pairwise_cons.2 ⟨fun y hy => ?_, h⟩
      rcases List.mem_cons.1 hy with rfl | hy
      · exact hlt
      · exact UInt32.lt_trans hlt (hs y hy)
    · split
      · exact List.pairwise_cons.2 ⟨hs, hm⟩
      · rename_i hle hne
        refine List.pairwise_cons.2 ⟨fun y hy => ?_, ih hm⟩
        rcases mem_keys_add hy with hy | ⟨z, hz, hzy⟩
        · have hne' : s.id ≠ sid.id := fun e => hne (by cases s; cases sid; exact congrArg Sid.mk e.symm)
          have : s.id < sid.id := UInt32.lt_of_le_of_ne (UInt32.not_lt.1 hle) hne'
          exact hy ▸ this
        · exact hzy ▸ hs z hz

/-- However lifetimes are put together, their assets ascend. -/
theorem ordered_ofList (always : List Sid) (intervals : List (Sid × Interval)) :
    (ofList always intervals).Ordered := by
  have main {ι : Type} (sidOf : ι → Sid) (intervalOf : ι → Interval) (xs : List ι) {m : Lifetimes}
      (h : m.Ordered) : (xs.foldl (fun m x => m.add (sidOf x) (intervalOf x)) m).Ordered := by
    induction xs generalizing m with
    | nil => exact h
    | cons x xs ih => exact ih (h.add _ _)
  exact main Prod.fst Prod.snd intervals (main id (fun _ => (.earliest, .latest)) always List.Pairwise.nil)

theorem lookup_eq_some {intervals : List Interval} (h : m.Ordered) :
    m.lookup sid = some intervals ↔ (sid, intervals) ∈ m := by
  induction m with
  | nil => exact ⟨nofun, nofun⟩
  | cons y m ih =>
    obtain ⟨s, is⟩ := y
    obtain ⟨hs, hm⟩ := List.pairwise_cons.1 h
    rw [List.lookup_cons, List.mem_cons]
    by_cases he : sid = s
    · subst he
      rw [beq_self_eq_true]
      constructor
      · exact fun e => .inl (by rw [Option.some.inj e])
      · rintro (e | hmem)
        · exact congrArg some (congrArg Prod.snd e).symm
        · exact absurd (hs _ hmem) (UInt32.lt_irrefl _)
    · rw [beq_false_of_ne he]
      exact (ih hm).trans ⟨.inr, fun h => h.resolve_left fun e => he (congrArg Prod.fst e)⟩

theorem isAlive_iff (h : m.Ordered) : m.isAlive sid date = true ↔ m.Covers sid date := by
  have hany (is : List Interval) : (is.any fun interval => interval.1 ≤ date && date ≤ interval.2) = true ↔
      ∃ interval ∈ is, interval.1 ≤ date ∧ date ≤ interval.2 := by
    simp only [List.any_eq_true, Bool.and_eq_true, decide_eq_true_iff]
  rw [isAlive]
  constructor
  · intro halive
    cases hl : m.lookup sid with
    | none =>
      rw [hl] at halive
      cases halive
    | some is =>
      rw [hl] at halive
      exact ⟨(sid, is), (lookup_eq_some h).1 hl, rfl, (hany is).1 halive⟩
  · rintro ⟨⟨s, is⟩, hmem, rfl, hcovers⟩
    rw [(lookup_eq_some h).2 hmem]
    exact (hany is).2 hcovers

/-- The universe of lifetimes tells of every day and asset by itself. -/
theorem pointwise (h : m.Ordered) : m.toUniverse.Pointwise fun date sid => m.isAlive sid date where
  nodup := by
    refine List.pairwise_map.2 (List.Pairwise.imp ?_ h)
    intro a b hlt he
    exact UInt32.lt_irrefl b.1.id (by rwa [he] at hlt)
  alive dates sids := by
    refine Grid.ext_get? ?_ fun i j => ?_
    · show (Array.size _, Array.size _) = _
      rw [List.size_toArray, List.size_toArray, List.length_map]
      rfl
    · rw [toUniverse, Grid.get?_ofFn, Grid.get?_ofFn]
      simp only [List.size_toArray, List.length_map]
      split
      · simp only [Fin.getElem_fin, List.get_eq_getElem, List.getElem_toArray, List.getElem_map, isAlive]
      · rfl

end AsOf.Lifetimes
