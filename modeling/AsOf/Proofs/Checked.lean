import Mathlib.Data.List.Forall2

/-!
# Lists of computations that may fail

A list of computations in `Except` or `Option` succeeds when each of them does, and
then it has the results of each, in order.
-/
namespace AsOf

variable {ε α β γ γ' : Type}

namespace Checked

theorem exists_right {R : α → β → Prop} {xs : List α} {ys : List β} (h : List.Forall₂ R xs ys)
    {x : α} (hx : x ∈ xs) : ∃ y ∈ ys, R x y := by
  induction h with
  | nil => cases hx
  | @cons a b xs ys hab _ ih =>
    rcases List.mem_cons.1 hx with rfl | hx
    · exact ⟨b, List.mem_cons_self, hab⟩
    · obtain ⟨y, hy, hr⟩ := ih hx
      exact ⟨y, List.mem_cons_of_mem _ hy, hr⟩

theorem exists_left {R : α → β → Prop} {xs : List α} {ys : List β} (h : List.Forall₂ R xs ys)
    {y : β} (hy : y ∈ ys) : ∃ x ∈ xs, R x y := exists_right h.flip hy

theorem getElem?_left {R : α → β → Prop} {xs : List α} {ys : List β} (h : List.Forall₂ R xs ys) {i : Nat} {y : β}
    (hy : ys[i]? = some y) : ∃ x, xs[i]? = some x ∧ R x y := by
  obtain ⟨hi, rfl⟩ := List.getElem?_eq_some_iff.1 hy
  obtain ⟨hlength, hget⟩ := List.forall₂_iff_get.1 h
  exact ⟨_, List.getElem?_eq_getElem (hlength.symm ▸ hi), hget i (hlength.symm ▸ hi) hi⟩

theorem exists_mem_zipIdx {xs : List α} {x : α} (h : x ∈ xs) : ∃ index, (x, index) ∈ xs.zipIdx := by
  obtain ⟨index, hi⟩ := List.getElem?_of_mem h
  refine ⟨index, ?_⟩
  rw [List.mem_zipIdx_iff_getElem?]
  exact hi

/-- Two lists that go with a third one go with each other. -/
theorem forall₂_of_common {R : α → β → Prop} {S : α → γ → Prop} {T : β → γ → Prop} {xs : List α} {ys : List β}
    {zs : List γ} (hr : List.Forall₂ R xs ys) (hs : List.Forall₂ S xs zs) (h : ∀ x ∈ xs, ∀ y z, R x y → S x z → T y z) :
    List.Forall₂ T ys zs := by
  induction hr generalizing zs with
  | nil =>
    obtain rfl := List.forall₂_nil_left_iff.1 hs
    exact .nil
  | cons hxy _ ih =>
    obtain ⟨z, zs, hxz, hrest, rfl⟩ := List.forall₂_cons_left_iff.1 hs
    exact .cons (h _ List.mem_cons_self _ _ hxy hxz) (ih hrest fun x hx => h x (List.mem_cons_of_mem _ hx))

theorem map_eq_map {R : α → β → Prop} {f : α → γ} {g : β → γ} {xs : List α} {ys : List β}
    (h : List.Forall₂ R xs ys) (hf : ∀ x y, R x y → f x = g y) : xs.map f = ys.map g := by
  induction h with
  | nil => rfl
  | cons hxy _ ih => rw [List.map_cons, List.map_cons, hf _ _ hxy, ih]

theorem eq_map {f : α → β} {xs : List α} {ys : List β} (h : List.Forall₂ (fun x y => y = f x) xs ys) :
    ys = xs.map f := by
  rw [map_eq_map h fun _ _ hxy => hxy.symm, List.map_id']

theorem exists_map_eq {f : γ → α} {g : γ → β} {xs : List α} {ys : List β}
    (h : List.Forall₂ (fun x y => ∃ z, x = f z ∧ y = g z) xs ys) : ∃ zs : List γ, xs = zs.map f ∧ ys = zs.map g := by
  induction h with
  | nil => exact ⟨[], rfl, rfl⟩
  | cons hxy _ ih =>
    obtain ⟨z, rfl, rfl⟩ := hxy
    obtain ⟨zs, rfl, rfl⟩ := ih
    exact ⟨z :: zs, rfl, rfl⟩

theorem filterMap_eq_map {R : α → β → Prop} {f : α → Option γ} {g : β → γ} {xs : List α} {ys : List β}
    (h : List.Forall₂ R xs ys) (hf : ∀ x y, R x y → f x = some (g y)) : xs.filterMap f = ys.map g := by
  induction h with
  | nil => rfl
  | cons hxy _ ih => rw [List.filterMap_cons_some (hf _ _ hxy), ih, List.map_cons]

/-- What a test leaves of the results comes from what a test on the arguments leaves. -/
theorem map_some_filter_filterMap {f : α → Option β} {p : β → Bool} {q : α → Bool} {xs : List α}
    (h : ∀ x ∈ xs, (∃ y, f x = some y ∧ p y = true) ↔ q x = true) :
    ((xs.filterMap f).filter p).map some = (xs.filter q).map f := by
  induction xs with
  | nil => rfl
  | cons x xs ih =>
    have hx := h x List.mem_cons_self
    have ih := ih fun x hx => h x (List.mem_cons_of_mem _ hx)
    cases hfx : f x with
    | none =>
      rw [List.filterMap_cons_none hfx, List.filter_cons_of_neg fun hq => ?_, ih]
      obtain ⟨y, hy, -⟩ := hx.2 hq
      cases hfx.symm.trans hy
    | some y =>
      rw [List.filterMap_cons_some hfx]
      by_cases hp : p y = true
      · rw [List.filter_cons_of_pos hp, List.filter_cons_of_pos (hx.1 ⟨y, hfx, hp⟩), List.map_cons, List.map_cons, ih, hfx]
      · rw [List.filter_cons_of_neg hp, List.filter_cons_of_neg fun hq => ?_, ih]
        obtain ⟨z, hz, hpz⟩ := hx.2 hq
        exact hp (Option.some.inj (hfx.symm.trans hz) ▸ hpz)

theorem mapM_congr {m : Type → Type} [Monad m] [LawfulMonad m] {f g : α → m β} {xs : List α}
    (h : ∀ x ∈ xs, f x = g x) : xs.mapM f = xs.mapM g := by
  induction xs with
  | nil => rfl
  | cons x xs ih =>
    rw [List.mapM_cons, List.mapM_cons, h x List.mem_cons_self,
      ih fun x hx => h x (List.mem_cons_of_mem _ hx)]

/-! ## Except -/

theorem bind_eq_ok {x : Except ε α} {f : α → Except ε β} {b : β} :
    x >>= f = .ok b ↔ ∃ a, x = .ok a ∧ f a = .ok b := by
  cases x with
  | error e => exact ⟨nofun, fun ⟨_, h, _⟩ => by cases h⟩
  | ok a => exact ⟨fun h => ⟨a, rfl, h⟩, fun ⟨_, h, hf⟩ => by cases h; exact hf⟩

/-- A step fails if it does not succeed. -/
theorem exists_error_iff {x : Except ε α} : (∃ e, x = .error e) ↔ ∀ a, x ≠ .ok a := by
  cases x with
  | error e => exact ⟨fun _ => nofun, fun _ => ⟨e, rfl⟩⟩
  | ok a => exact ⟨nofun, fun h => absurd rfl (h a)⟩

theorem mapError_eq_ok {δ : Type} {x : Except ε α} {f : ε → δ} {a : α} :
    x.mapError f = .ok a ↔ x = .ok a := by
  cases x with
  | error e => exact ⟨nofun, nofun⟩
  | ok a => exact ⟨fun h => by cases h; rfl, fun h => by cases h; rfl⟩

theorem map_eq_ok {x : Except ε α} {f : α → β} {b : β} : f <$> x = .ok b ↔ ∃ a, x = .ok a ∧ f a = b := by
  cases x with
  | error e => exact ⟨nofun, nofun⟩
  | ok a => exact ⟨fun h => ⟨a, rfl, Except.ok.inj h⟩, fun ⟨_, h, hf⟩ => by cases h; exact congrArg _ hf⟩

theorem mapM_eq_ok {f : α → Except ε β} {xs : List α} {ys : List β} :
    xs.mapM f = .ok ys ↔ List.Forall₂ (fun x y => f x = .ok y) xs ys := by
  induction xs generalizing ys with
  | nil =>
    rw [List.mapM_nil, List.forall₂_nil_left_iff]
    exact ⟨fun h => (Except.ok.inj h).symm, fun h => congrArg Except.ok h.symm⟩
  | cons x xs ih =>
    rw [List.mapM_cons, bind_eq_ok]
    constructor
    · rintro ⟨y, hy, h⟩
      obtain ⟨zs, hzs, h⟩ := bind_eq_ok.1 h
      obtain rfl := Except.ok.inj h
      exact List.Forall₂.cons hy (ih.1 hzs)
    · intro h
      cases h with
      | cons hy hzs => exact ⟨_, hy, bind_eq_ok.2 ⟨_, ih.2 hzs, rfl⟩⟩

theorem mapM_of_ok {f : α → Except ε β} {g : α → β} {xs : List α} (h : ∀ x ∈ xs, f x = .ok (g x)) :
    xs.mapM f = .ok (xs.map g) := by
  rw [mapM_eq_ok, List.forall₂_map_right_iff, List.forall₂_same]
  exact h

theorem exists_mapM {f : α → Except ε β} {xs : List α} :
    (∃ ys, xs.mapM f = .ok ys) ↔ ∀ x ∈ xs, ∃ y, f x = .ok y := by
  constructor
  · rintro ⟨ys, h⟩ x hx
    obtain ⟨y, -, hy⟩ := exists_right (mapM_eq_ok.1 h) hx
    exact ⟨y, hy⟩
  · intro h
    induction xs with
    | nil => exact ⟨[], rfl⟩
    | cons x xs ih =>
      obtain ⟨y, hy⟩ := h x List.mem_cons_self
      obtain ⟨ys, hys⟩ := ih fun x hx => h x (List.mem_cons_of_mem _ hx)
      exact ⟨y :: ys, mapM_eq_ok.2 (.cons hy (mapM_eq_ok.1 hys))⟩

theorem mapM_of_error {f : α → Except ε β} {xs : List α} {x : α} (hx : x ∈ xs) {e : ε}
    (h : f x = .error e) : ∃ e, xs.mapM f = .error e := by
  refine exists_error_iff.2 fun ys hm => ?_
  obtain ⟨y, -, hy⟩ := exists_right (mapM_eq_ok.1 hm) hx
  rw [h] at hy
  cases hy

theorem exists_of_mapM_error {f : α → Except ε β} {xs : List α} {e : ε} (h : xs.mapM f = .error e) :
    ∃ x ∈ xs, f x = .error e := by
  induction xs with
  | nil => cases h
  | cons x xs ih =>
    rw [List.mapM_cons] at h
    cases hx : f x with
    | error e' =>
      rw [hx] at h
      exact ⟨x, List.mem_cons_self, hx.trans (congrArg _ (Except.error.inj h))⟩
    | ok y =>
      cases hxs : xs.mapM f with
      | error e' =>
        rw [hx, hxs] at h
        obtain ⟨x', hx', he⟩ := ih (hxs.trans (congrArg _ (Except.error.inj h)))
        exact ⟨x', List.mem_cons_of_mem _ hx', he⟩
      | ok ys =>
        rw [hx, hxs] at h
        cases h

theorem forM_eq_ok {f : α → Except ε PUnit} {xs : List α} :
    xs.forM f = .ok () ↔ ∀ x ∈ xs, f x = .ok () := by
  induction xs with
  | nil => exact ⟨fun _ _ hx => absurd hx List.not_mem_nil, fun _ => rfl⟩
  | cons x xs ih =>
    show (f x >>= fun _ => xs.forM f) = _ ↔ _
    rw [bind_eq_ok, List.forall_mem_cons, ← ih]
    exact ⟨fun h => ⟨h.choose_spec.1, h.choose_spec.2⟩, fun h => ⟨_, h.1, h.2⟩⟩

theorem filterMapM_eq_mapM {f : α → Except ε (Option β)} {g : α → Except ε β} {xs : List α}
    (h : ∀ x ∈ xs, f x = g x >>= fun y => .ok (some y)) : xs.filterMapM f = xs.mapM g := by
  induction xs with
  | nil => rfl
  | cons x xs ih =>
    rw [List.filterMapM_cons, List.mapM_cons, h x List.mem_cons_self,
      ih fun x hx => h x (List.mem_cons_of_mem _ hx)]
    cases g x <;> rfl

theorem filterMapM_of_ok {f : α → Except ε (Option β)} {g : α → Option β} {xs : List α}
    (h : ∀ x ∈ xs, f x = .ok (g x)) : xs.filterMapM f = .ok (xs.filterMap g) := by
  induction xs with
  | nil => rfl
  | cons x xs ih =>
    rw [List.filterMapM_cons, List.filterMap_cons, h x List.mem_cons_self,
      ih fun x hx => h x (List.mem_cons_of_mem _ hx)]
    cases g x <;> rfl

/-- What comes out comes from an item. -/
theorem exists_of_filterMapM {f : α → Except ε (Option β)} {xs : List α} {ys : List β}
    (h : xs.filterMapM f = .ok ys) {y : β} (hy : y ∈ ys) : ∃ x ∈ xs, f x = .ok (some y) := by
  induction xs generalizing ys with
  | nil =>
    obtain rfl := Except.ok.inj h
    cases hy
  | cons x xs ih =>
    rw [List.filterMapM_cons] at h
    obtain ⟨z, hz, h⟩ := bind_eq_ok.1 h
    have htail {ys : List β} (h : xs.filterMapM f = .ok ys) (hy : y ∈ ys) :
        ∃ x' ∈ x :: xs, f x' = .ok (some y) := by
      obtain ⟨x', hx, hf⟩ := ih h hy
      exact ⟨x', List.mem_cons_of_mem _ hx, hf⟩
    cases z with
    | none => exact htail h hy
    | some z =>
      obtain ⟨zs, hzs, h⟩ := bind_eq_ok.1 h
      obtain rfl := Except.ok.inj h
      rcases List.mem_cons.1 hy with rfl | hy
      · exact ⟨x, List.mem_cons_self, hz⟩
      · exact htail hzs hy

/-- What every step keeps is kept. -/
theorem foldlM_keeps {P : β → Prop} {step : β → α → Except ε β} {xs : List α} {init final : β} (hi : P init)
    (hs : ∀ x ∈ xs, ∀ y y', P y → step y x = .ok y' → P y') (h : xs.foldlM step init = .ok final) : P final := by
  induction xs generalizing init with
  | nil =>
    obtain rfl := Except.ok.inj h
    exact hi
  | cons x xs ih =>
    rw [List.foldlM_cons] at h
    obtain ⟨mid, hmid, h⟩ := bind_eq_ok.1 h
    exact ih (hs x List.mem_cons_self _ _ hi hmid) (fun x hx => hs x (List.mem_cons_of_mem _ hx)) h

theorem foldlM_congr {f g : β → α → Except ε β} {xs : List α} (h : ∀ x ∈ xs, ∀ y, f y x = g y x) (init : β) :
    xs.foldlM f init = xs.foldlM g init := by
  induction xs generalizing init with
  | nil => rfl
  | cons x xs ih =>
    rw [List.foldlM_cons, List.foldlM_cons, h x List.mem_cons_self]
    exact congrArg _ (funext fun y => ih (fun x hx => h x (List.mem_cons_of_mem _ hx)) y)

/-- A computation ends with something good, or fails in a permitted way. -/
def Ends (A : α → Prop) (permitted : ε → Prop) : Except ε α → Prop
  | .ok a => A a
  | .error e => permitted e

section Ends

variable {A : α → Prop} {B : β → Prop} {permitted : ε → Prop}

theorem Ends.bind {x : Except ε α} {f : α → Except ε β} (hx : Ends A permitted x)
    (hf : ∀ a, A a → Ends B permitted (f a)) : Ends B permitted (x >>= f) := by
  cases x with
  | error e => exact hx
  | ok a => exact hf a hx

theorem Ends.mono {A' : α → Prop} {x : Except ε α} (hx : Ends A permitted x) (h : ∀ a, A a → A' a) :
    Ends A' permitted x := by
  cases x with
  | error e => exact hx
  | ok a => exact h a hx

theorem Ends.weaken {permitted' : ε → Prop} {x : Except ε α} (hx : Ends A permitted x)
    (h : ∀ e, permitted e → permitted' e) : Ends A permitted' x := by
  cases x with
  | error e => exact h e hx
  | ok a => exact hx

/-- Every computation ends, one way or the other. -/
theorem ends_true (x : Except ε α) : Ends (fun _ => True) (fun _ => True) x := by
  cases x <;> trivial

theorem Ends.mapError {δ : Type} {allowed : δ → Prop} {x : Except δ α} {f : δ → ε} (hx : Ends A allowed x)
    (hf : ∀ e, allowed e → permitted (f e)) : Ends A permitted (x.mapError f) := by
  cases x with
  | error e => exact hf e hx
  | ok a => exact hx

theorem ends_foldlM {step : β → α → Except ε β} {xs : List α}
    (hs : ∀ x ∈ xs, ∀ y, B y → Ends B permitted (step y x)) {init : β} (hi : B init) :
    Ends B permitted (xs.foldlM step init) := by
  induction xs generalizing init with
  | nil => exact hi
  | cons x xs ih =>
    rw [List.foldlM_cons]
    exact (hs x List.mem_cons_self init hi).bind fun y hy => ih (fun x hx => hs x (List.mem_cons_of_mem _ hx)) hy

theorem ends_forM {f : α → Except ε PUnit} {xs : List α} (h : ∀ x ∈ xs, Ends (fun _ => True) permitted (f x)) :
    Ends (fun _ => True) permitted (xs.forM f) := by
  induction xs with
  | nil => trivial
  | cons x xs ih =>
    exact (h x List.mem_cons_self).bind fun _ _ => ih fun x hx => h x (List.mem_cons_of_mem _ hx)

theorem ends_mapM {f : α → Except ε β} {xs : List α} (h : ∀ x ∈ xs, Ends B permitted (f x)) :
    Ends (fun ys => ∀ y ∈ ys, B y) permitted (xs.mapM f) := by
  cases hm : xs.mapM f with
  | error e =>
    obtain ⟨x, hx, he⟩ := exists_of_mapM_error hm
    have := h x hx
    rwa [he] at this
  | ok ys =>
    intro y hy
    obtain ⟨x, hx, hxy⟩ := exists_left (mapM_eq_ok.1 hm) hy
    have := h x hx
    rwa [hxy] at this

end Ends

/-! ## Option -/

theorem mapM_eq_some {f : α → Option β} {xs : List α} {ys : List β} :
    xs.mapM f = some ys ↔ List.Forall₂ (fun x y => f x = some y) xs ys := by
  induction xs generalizing ys with
  | nil =>
    rw [List.mapM_nil, List.forall₂_nil_left_iff]
    exact ⟨fun h => (Option.some.inj h).symm, fun h => congrArg some h.symm⟩
  | cons x xs ih =>
    rw [List.mapM_cons, Option.bind_eq_bind, Option.bind_eq_some_iff]
    constructor
    · rintro ⟨y, hy, h⟩
      obtain ⟨zs, hzs, h⟩ := Option.bind_eq_some_iff.1 h
      obtain rfl := Option.some.inj h
      exact List.Forall₂.cons hy (ih.1 hzs)
    · intro h
      cases h with
      | cons hy hzs => exact ⟨_, hy, Option.bind_eq_some_iff.2 ⟨_, ih.2 hzs, rfl⟩⟩

/-- What all items of one list have, those of a list that goes with it have too. -/
theorem exists_mapM_alike {R : α → β → Prop} {S : γ → γ' → Prop} {f : α → Option γ} {g : β → Option γ'} {xs : List α}
    {ys : List β} {zs : List γ} (h : List.Forall₂ R xs ys) (hf : xs.mapM f = some zs)
    (halike : ∀ x y, R x y → ∀ z, f x = some z → ∃ z', g y = some z' ∧ S z z') :
    ∃ zs', ys.mapM g = some zs' ∧ List.Forall₂ S zs zs' := by
  simp only [mapM_eq_some] at hf ⊢
  induction h generalizing zs with
  | nil =>
    obtain rfl := List.forall₂_nil_left_iff.1 hf
    exact ⟨[], .nil, .nil⟩
  | cons hxy _ ih =>
    obtain ⟨z, zs, hz, hzs, rfl⟩ := List.forall₂_cons_left_iff.1 hf
    obtain ⟨z', hz', hs⟩ := halike _ _ hxy z hz
    obtain ⟨zs', hzs', hall⟩ := ih hzs
    exact ⟨z' :: zs', .cons hz' hzs', .cons hs hall⟩

theorem mapM_of_some {f : α → Option β} {g : α → β} {xs : List α}
    (h : ∀ x ∈ xs, f x = some (g x)) : xs.mapM f = some (xs.map g) := by
  rw [mapM_eq_some, List.forall₂_map_right_iff, List.forall₂_same]
  exact h

theorem mapM_of_none {f : α → Option β} {xs : List α} {x : α} (hx : x ∈ xs) (h : f x = none) :
    xs.mapM f = none := by
  rw [Option.eq_none_iff_forall_ne_some]
  intro ys hys
  obtain ⟨y, -, hy⟩ := exists_right (mapM_eq_some.1 hys) hx
  rw [h] at hy
  cases hy

theorem isSome_mapM {f : α → Option β} {xs : List α} :
    (xs.mapM f).isSome = true ↔ ∀ x ∈ xs, (f x).isSome = true := by
  constructor
  · intro h x hx
    by_contra hn
    rw [mapM_of_none hx (by simpa using hn)] at h
    cases h
  · intro h
    induction xs with
    | nil => rfl
    | cons x xs ih =>
      obtain ⟨y, hy⟩ := Option.isSome_iff_exists.1 (h x List.mem_cons_self)
      obtain ⟨ys, hys⟩ :=
        Option.isSome_iff_exists.1 (ih fun x hx => h x (List.mem_cons_of_mem _ hx))
      rw [mapM_eq_some.2 (.cons hy (mapM_eq_some.1 hys))]
      rfl

theorem mapM_concat {f : α → Option β} {xs : List α} {ys : List β} {x : α} {y : β}
    (h : xs.mapM f = some ys) (hx : f x = some y) : (xs ++ [x]).mapM f = some (ys ++ [y]) := by
  rw [List.mapM_append, h, List.mapM_cons, hx]
  rfl

/-- One computation after the other, item by item. -/
theorem mapM_bind {f : α → Option β} {g : β → Option γ} {xs : List α} {ys : List β} {zs : List γ}
    (hf : xs.mapM f = some ys) (hg : ys.mapM g = some zs) : xs.mapM (fun x => (f x).bind g) = some zs := by
  rw [mapM_eq_some] at hf hg ⊢
  induction hf generalizing zs with
  | nil => rwa [List.forall₂_nil_left_iff] at hg ⊢
  | cons hxy _ ih =>
    obtain ⟨z, zs, hz, hzs, rfl⟩ := List.forall₂_cons_left_iff.1 hg
    exact .cons (Option.bind_eq_some_iff.2 ⟨_, hxy, hz⟩) (ih hzs)

end Checked
end AsOf
