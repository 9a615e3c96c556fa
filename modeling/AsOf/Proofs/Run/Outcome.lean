import AsOf.Proofs.Checked
import AsOf.Run.Loading

/-!
# What a run comes to

A run records the calls that it makes. `Run.Is x r` says that it comes to `r` whatever
calls were made before; the parts of a run are put together by `Is.bind` and
`Is.bind_error`. `Run.Makes` is about the calls that it adds to those.
-/
namespace AsOf.Run

variable {α β : Type} {x : Run α} {f : α → Run β} {a : α} {r : Except RunError β} {e : RunError}

/-- The run comes to a result, whatever calls were made before. -/
def Is (x : Run α) (r : Except RunError α) : Prop := ∀ calls : List Call, (x.run.run calls).1 = r

theorem is_pure (a : α) : (pure a : Run α).Is (.ok a) := fun _ => rfl

theorem is_throw (e : RunError) : (throw e : Run α).Is (.error e) := fun _ => rfl

theorem run_lift (r : Except RunError α) (calls : List Call) : (liftM r : Run α).run.run calls = (r, calls) := by
  cases r <;> rfl

theorem is_lift (r : Except RunError α) : (liftM r : Run α).Is r := fun calls => by rw [run_lift]

theorem lift_bind (x : Except RunError α) (f : α → Except RunError β) :
    (liftM (x >>= f) : Run β) = liftM x >>= fun a => liftM (f a) := by
  cases x <;> rfl

theorem lift_forM (f : α → Except RunError β) (xs : List α) :
    (xs.forM fun x => discard (liftM (f x) : Run β)) =
      (liftM (xs.forM fun x => discard (f x) : Except RunError PUnit) : Run PUnit) := by
  induction xs with
  | nil => rfl
  | cons x xs ih =>
    show (discard (liftM (f x)) >>= fun _ => xs.forM _) = liftM (discard (f x) >>= fun _ => xs.forM _)
    rw [ih, lift_bind]
    cases f x <;> rfl

theorem run_bind (x : Run α) (f : α → Run β) (calls : List Call) :
    (x >>= f).run.run calls = match x.run.run calls with
      | (.ok a, calls) => (f a).run.run calls
      | (.error e, calls) => (.error e, calls) := by
  show (ExceptT.bindCont f (x.run.run calls).1).run (x.run.run calls).2 = _
  cases x.run.run calls with
  | mk result calls => cases result <;> rfl

/-- What ends well has parts that end well. -/
theorem run_bind_eq_ok {calls calls' : List Call} {b : β} : (x >>= f).run.run calls = (.ok b, calls') ↔
    ∃ a mid, x.run.run calls = (.ok a, mid) ∧ (f a).run.run mid = (.ok b, calls') := by
  rw [run_bind]
  cases hx : x.run.run calls with
  | mk result mid =>
    cases result with
    | error e => exact ⟨nofun, fun ⟨_, _, hok, _⟩ => nomatch hok⟩
    | ok a =>
      refine ⟨fun h => ⟨a, mid, rfl, h⟩, ?_⟩
      rintro ⟨_, _, hok, h⟩
      cases hok
      exact h

theorem Is.bind (hx : x.Is (.ok a)) (hf : (f a).Is r) : (x >>= f).Is r := by
  intro calls
  have := hx calls
  rw [run_bind]
  cases hc : x.run.run calls with
  | mk result calls' =>
    rw [hc] at this
    obtain rfl : result = .ok a := this
    exact hf calls'

theorem Is.bind_error (hx : x.Is (.error e)) : (x >>= f).Is (.error e) := by
  intro calls
  have := hx calls
  rw [run_bind]
  cases hc : x.run.run calls with
  | mk result calls' =>
    rw [hc] at this
    obtain rfl : result = .error e := this
    rfl

/-- What comes to a result step by step comes to a result. -/
theorem exists_bind (hx : ∃ r, x.Is r) (hf : ∀ a, ∃ r, (f a).Is r) : ∃ r, (x >>= f).Is r := by
  obtain ⟨r, hx⟩ := hx
  cases r with
  | error e => exact ⟨_, hx.bind_error⟩
  | ok a =>
    obtain ⟨r, hf⟩ := hf a
    exact ⟨r, hx.bind hf⟩

theorem exists_foldlM {γ : Type} {step : α → γ → Run α} (h : ∀ a c, ∃ r, (step a c).Is r) (cs : List γ)
    (a : α) : ∃ r, (cs.foldlM step a).Is r := by
  induction cs generalizing a with
  | nil => exact ⟨_, is_pure a⟩
  | cons c cs ih =>
    rw [List.foldlM_cons]
    exact exists_bind (h a c) fun a => ih a

/-- What ends well begins well. -/
theorem Is.of_bind {r : Except RunError α} {b : β} {calls : List Call} (hx : x.Is r)
    (h : ((x >>= f).run.run calls).1 = .ok b) :
    ∃ a calls', r = .ok a ∧ ((f a).run.run calls').1 = .ok b := by
  have hval := hx calls
  rw [run_bind] at h
  cases hc : x.run.run calls with
  | mk result calls' =>
    rw [hc] at h hval
    cases result with
    | error e => cases h
    | ok a => exact ⟨a, calls', hval.symm, h⟩

/-- A run comes to one result. -/
theorem Is.unique {r r' : Except RunError α} (h : x.Is r) (h' : x.Is r') : r = r' :=
  (h []).symm.trans (h' [])

/-- A run ends with something good, or fails in a permitted way, whatever calls were made before. -/
def Ends (A : α → Prop) (permitted : RunError → Prop) (x : Run α) : Prop :=
  ∀ calls : List Call, Checked.Ends A permitted (x.run.run calls).1

section Ends

variable {A : α → Prop} {B : β → Prop} {permitted : RunError → Prop}

theorem ends_pure (h : A a) : Ends A permitted (pure a : Run α) := fun _ => h

theorem ends_lift {r : Except RunError α} (h : Checked.Ends A permitted r) : Ends A permitted (liftM r : Run α) := by
  intro calls
  rw [is_lift r calls]
  exact h

theorem Ends.bind (hx : Ends A permitted x) (hf : ∀ a, A a → Ends B permitted (f a)) :
    Ends B permitted (x >>= f) := by
  intro calls
  have hval := hx calls
  rw [run_bind]
  cases hc : x.run.run calls with
  | mk result calls' =>
    rw [hc] at hval
    cases result with
    | error e => exact hval
    | ok a => exact hf a hval calls'

theorem Ends.weaken {permitted' : RunError → Prop} (hx : Ends A permitted x) (h : ∀ e, permitted e → permitted' e) :
    Ends A permitted' x := fun calls => (hx calls).weaken h

theorem ends_foldlM {γ : Type} {step : α → γ → Run α} {cs : List γ}
    (hs : ∀ c ∈ cs, ∀ a, A a → Ends A permitted (step a c)) {a : α} (ha : A a) :
    Ends A permitted (cs.foldlM step a) := by
  induction cs generalizing a with
  | nil => exact fun _ => ha
  | cons c cs ih =>
    rw [List.foldlM_cons]
    exact (hs c List.mem_cons_self a ha).bind fun a ha => ih (fun c hc => hs c (List.mem_cons_of_mem _ hc)) ha

end Ends

/-! ## The calls that are made -/

/-- The calls that a run makes, taken together, are such, whatever calls were made before. -/
def Makes (Q : List Call → Prop) (x : Run α) : Prop :=
  ∀ calls : List Call, ∃ made, (x.run.run calls).2 = calls ++ made ∧ Q made

section Makes

variable {P Q R : List Call → Prop}

theorem makes_lift (h : Q []) (r : Except RunError α) : Makes Q (liftM r : Run α) := fun calls => by
  rw [run_lift]
  exact ⟨[], (List.append_nil calls).symm, h⟩

theorem Makes.bind (hx : Makes P x) (hf : ∀ a, Makes Q (f a)) (hfirst : ∀ made, P made → R made)
    (hboth : ∀ made more, P made → Q more → R (made ++ more)) : Makes R (x >>= f) := by
  intro calls
  obtain ⟨made, heq, hmade⟩ := hx calls
  rw [run_bind]
  cases hc : x.run.run calls with
  | mk result calls' =>
    rw [hc] at heq
    obtain rfl : calls' = calls ++ made := heq
    cases result with
    | error e => exact ⟨made, rfl, hfirst made hmade⟩
    | ok a =>
      obtain ⟨more, heq, hmore⟩ := hf a (calls ++ made)
      exact ⟨made ++ more, heq.trans (List.append_assoc ..), hboth made more hmade hmore⟩

end Makes

/-- Asking a loader comes to its answer. -/
theorem is_call (l : Loader) (request : Request) : (call l request).Is (.ok (l.load request)) :=
  fun _ => rfl

end AsOf.Run
