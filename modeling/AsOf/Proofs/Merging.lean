import AsOf.Proofs.Strict

/-!
# Putting adjustments in, one call after the other

Adjustments are put into a history behind or before those of the same key. A call looks at all
that it is given before it puts anything in, so one that fails has changed nothing; what it
looks at is the block, which no call changes. After any calls the list of a key reads from the
last that was put before it to the last that was put behind it.

* `run_mergeInPlace`: a call that changes the history entry by entry.
* `held_mergeAll`, `flat_mergeAll`: what a call adds under a key, and in all.
* `Merged.of_calls`: what calls leave behind.
* `merging_keeps_order`: calls, and what can be read after them.
-/
namespace AsOf

/-- A list behind or before the one that is held. -/
def Merge.join (mode : Merge) (held as : List Adjustment) : List Adjustment :=
  match mode with
  | .append => held ++ as
  | .prepend => as ++ held

theorem Merge.join_nil (mode : Merge) (held : List Adjustment) : mode.join held [] = held := by
  cases mode with
  | append => exact List.append_nil held
  | prepend => rfl

theorem Merge.join_perm (mode : Merge) (held as : List Adjustment) : (mode.join held as).Perm (held ++ as) := by
  cases mode with
  | append => exact .refl _
  | prepend => exact List.perm_append_comm

namespace Adjustments

/-! ## The list of a key -/

/-- The adjustments held at a key. -/
def held (m : Adjustments) (key : Nat) : List Adjustment := (m.lookup key).getD []

/-- Puts keyed lists in, one after the other. -/
def mergeAll (mode : Merge) (incoming m : Adjustments) : Adjustments :=
  incoming.foldl (fun m x => m.update x.1 (mode.join · x.2)) m

variable {m incoming : Adjustments}

theorem held_cons (x : Nat × List Adjustment) (m : Adjustments) (key : Nat) :
    held (x :: m) key = if key = x.1 then x.2 else held m key := by
  rw [held, List.lookup]
  by_cases h : key = x.1
  · rw [if_pos h, beq_iff_eq.2 h]
    rfl
  · rw [if_neg h, beq_false_of_ne h]
    rfl

/-- Below all keys nothing is held. -/
theorem held_of_lt {key : Nat} (h : ∀ x ∈ m, key < x.1) : held m key = [] := by
  induction m with
  | nil => rfl
  | cons x m ih =>
    obtain ⟨hx, hm⟩ := List.forall_mem_cons.1 h
    rw [held_cons, if_neg (Nat.ne_of_lt hx), ih hm]

/-- Only the list of the key is changed. -/
theorem held_update (h : m.Ordered) (key : Nat) (f : List Adjustment → List Adjustment) (k : Nat) :
    held (m.update key f) k = if k = key then f (held m key) else held m k := by
  induction m with
  | nil => exact held_cons (key, f []) [] k
  | cons x m ih =>
    obtain ⟨key', as⟩ := x
    obtain ⟨hlt, hm⟩ := List.pairwise_cons.1 h
    rw [update]
    by_cases hk : key < key'
    · have hnone : held ((key', as) :: m) key = [] :=
        held_of_lt (List.forall_mem_cons.2 ⟨hk, fun x hx => Nat.lt_trans hk (hlt x hx)⟩)
      rw [if_pos hk, held_cons, hnone]
    · rw [if_neg hk]
      by_cases he : key = key'
      · subst he
        rw [if_pos rfl, held_cons, held_cons, held_cons, if_pos rfl]
        by_cases hkey : k = key
        · rw [if_pos hkey, if_pos hkey]
        · rw [if_neg hkey, if_neg hkey, if_neg hkey]
      · rw [if_neg he, held_cons, held_cons, held_cons, if_neg he, ih hm]
        by_cases hkey : k = key'
        · rw [if_pos hkey, if_pos hkey, if_neg (fun e => he (e.symm.trans hkey))]
        · rw [if_neg hkey, if_neg hkey]

theorem Ordered.mergeAll (h : m.Ordered) (mode : Merge) (incoming : Adjustments) :
    (mergeAll mode incoming m).Ordered := by
  induction incoming generalizing m with
  | nil => exact h
  | cons x incoming ih => exact ih (h.update _ _)

/-- At every key the list that comes in joins the one that is held. -/
theorem held_mergeAll (h : m.Ordered) (hi : incoming.Ordered) (mode : Merge) (key : Nat) :
    held (mergeAll mode incoming m) key = mode.join (held m key) (held incoming key) := by
  induction incoming generalizing m with
  | nil => exact (mode.join_nil _).symm
  | cons x incoming ih =>
    obtain ⟨hlt, hi⟩ := List.pairwise_cons.1 hi
    rw [show mergeAll mode (x :: incoming) m = mergeAll mode incoming (m.update x.1 (mode.join · x.2)) from rfl,
      ih (h.update _ _) hi, held_update h, held_cons]
    by_cases hkey : key = x.1
    · rw [if_pos hkey, if_pos hkey, hkey, held_of_lt hlt, mode.join_nil]
    · rw [if_neg hkey, if_neg hkey]

/-! ## All adjustments -/

theorem flat_nil : flat [] = [] := rfl

theorem flat_cons (x : Nat × List Adjustment) (m : Adjustments) : flat (x :: m) = x.2.map (x.1, ·) ++ flat m := rfl

/-- A list that joins the one of a key adds its adjustments. -/
theorem flat_update (mode : Merge) (key : Nat) (as : List Adjustment) :
    (flat (m.update key (mode.join · as))).Perm (m.flat ++ as.map (key, ·)) := by
  induction m with
  | nil =>
    rw [update, flat_cons, flat_nil, List.append_nil, List.nil_append]
    exact (mode.join_perm [] as).map _
  | cons x m ih =>
    obtain ⟨key', held⟩ := x
    rw [update]
    split
    · rw [flat_cons]
      exact (((mode.join_perm [] as).map _).append_right _).trans List.perm_append_comm
    · split
      · rename_i he
        subst he
        rw [flat_cons, flat_cons]
        refine (((mode.join_perm held as).map _).append_right _).trans ?_
        rw [List.map_append, List.append_assoc, List.append_assoc]
        exact List.perm_append_comm.append_left _
      · rw [flat_cons, flat_cons, List.append_assoc]
        exact ih.append_left _

/-- What comes in is added, and nothing else. -/
theorem flat_mergeAll (mode : Merge) : (flat (mergeAll mode incoming m)).Perm (m.flat ++ incoming.flat) := by
  induction incoming generalizing m with
  | nil =>
    rw [flat_nil, List.append_nil]
    exact .refl _
  | cons x incoming ih =>
    rw [flat_cons, ← List.append_assoc]
    exact ih.trans ((flat_update mode x.1 x.2).append_right _)

/-- Adjustments as they can be given: by ascending keys, and made by `mk?`. -/
structure Given (m : Adjustments) : Prop where
  ordered : m.Ordered
  made : ∀ x ∈ m.flat, x.2.Made

end Adjustments

namespace History

open Adjustments Adjustment

/-! ## One call -/

/-- Puts in what comes, entry by entry. -/
def putAll (incoming : Adjustments) (mode : Merge) : ExceptT ArrayError (StateM History) Unit :=
  incoming.forM fun x => modify fun h => { h with adjustments := h.adjustments.update x.1 (mode.join · x.2) }

/-- The call as a change in place: it looks at all that comes, and then puts it in. -/
def mergeInPlace (incoming : Adjustments) (mode : Merge) : ExceptT ArrayError (StateM History) Unit := do
  let h ← get
  MonadExcept.ofExcept (validate h.block incoming)
  putAll incoming mode

variable {h h' : History}

theorem updateAdjustments_eq (h : History) (incoming : Adjustments) (mode : Merge) :
    h.updateAdjustments incoming mode =
      (validate h.block incoming).map fun _ => { h with adjustments := mergeAll mode incoming h.adjustments } := by
  unfold updateAdjustments
  cases validate h.block incoming with
  | error err => rfl
  | ok _ => cases mode <;> rfl

theorem run_putAll (incoming : Adjustments) (mode : Merge) (h : History) :
    (putAll incoming mode).run.run h = (.ok (), { h with adjustments := mergeAll mode incoming h.adjustments }) := by
  induction incoming generalizing h with
  | nil => rfl
  | cons x incoming ih => exact ih _

/-- In place or not, a call ends in the same way, and one that fails leaves the history as it was. -/
theorem run_mergeInPlace (incoming : Adjustments) (mode : Merge) (h : History) :
    (mergeInPlace incoming mode).run.run h = match h.updateAdjustments incoming mode with
      | .ok h' => (.ok (), h')
      | .error err => (.error err, h) := by
  rw [updateAdjustments_eq]
  show ((MonadExcept.ofExcept (validate h.block incoming) >>= fun _ => putAll incoming mode).run.run h :
    Except ArrayError Unit × History) = _
  cases validate h.block incoming with
  | error err => rfl
  | ok _ => exact run_putAll incoming mode h

/-! ## Calls one after the other -/

/-- What a call is given. -/
structure Call where
  incoming : Adjustments
  mode : Merge

/-- The history after calls, one after the other. -/
def after (h : History) (calls : List Call) : History :=
  calls.foldl (fun h call => ((mergeInPlace call.incoming call.mode).run.run h).2) h

/-- The calls that do not fail. -/
def successes (h : History) : List Call → List Call
  | [] => []
  | call :: calls =>
    match h.updateAdjustments call.incoming call.mode with
    | .ok h' => call :: successes h' calls
    | .error _ => successes h calls

/-- What calls of one mode are given for a key. -/
def batches (mode : Merge) (key : Nat) (calls : List Call) : List (List Adjustment) :=
  (calls.filter (·.mode = mode)).map (·.incoming.held key)

/-- What calls make of a history, when these of them succeed. -/
structure Merged (h : History) (calls : List Call) (h' : History) : Prop where
  block : h'.block = h.block
  missing : h'.missing = h.missing
  ordered : h'.adjustments.Ordered
  held : ∀ key, h'.adjustments.held key = (batches .prepend key calls).reverse.flatten ++ h.adjustments.held key ++
    (batches .append key calls).flatten
  /-- No adjustment is lost, and none is there twice that was put in once. -/
  flat : h'.adjustments.flat.Perm (h.adjustments.flat ++ calls.flatMap (·.incoming.flat))

theorem updateAdjustments_eq_ok {incoming : Adjustments} {mode : Merge} :
    h.updateAdjustments incoming mode = .ok h' ↔ validate h.block incoming = .ok () ∧
      h' = { h with adjustments := mergeAll mode incoming h.adjustments } := by
  rw [updateAdjustments_eq]
  cases validate h.block incoming with
  | error err => exact iff_of_false nofun nofun
  | ok _ => exact ⟨fun e => ⟨rfl, (Except.ok.inj e).symm⟩, fun e => congrArg Except.ok e.2.symm⟩

theorem batches_cons (mode : Merge) (key : Nat) (call : Call) (calls : List Call) :
    batches mode key (call :: calls) =
      if call.mode = mode then call.incoming.held key :: batches mode key calls else batches mode key calls := by
  rw [batches, List.filter_cons]
  by_cases hm : call.mode = mode
  · rw [if_pos hm, if_pos (by simpa using hm)]
    rfl
  · rw [if_neg hm, if_neg (by simpa using hm)]
    rfl

theorem Merged.nil (ho : h.adjustments.Ordered) : Merged h [] h where
  block := rfl
  missing := rfl
  ordered := ho
  held key := (List.append_nil _).symm
  flat := by rw [List.flatMap_nil, List.append_nil]

/-- A call that succeeds comes before the others: what is put before later lists, or behind them,
stands farther from those held at first. -/
theorem Merged.cons {call : Call} {calls : List Call} {h₁ : History} (ho : h.adjustments.Ordered)
    (hi : call.incoming.Ordered) (hu : h.updateAdjustments call.incoming call.mode = .ok h₁)
    (hm : Merged h₁ calls h') : Merged h (call :: calls) h' := by
  obtain ⟨-, rfl⟩ := updateAdjustments_eq_ok.1 hu
  refine ⟨hm.block, hm.missing, hm.ordered, fun key => ?_, ?_⟩
  · rw [hm.held, held_mergeAll ho hi, batches_cons, batches_cons]
    cases call.mode with
    | append =>
      rw [if_pos rfl, if_neg (by decide), List.flatten_cons, Merge.join]
      simp only [List.append_assoc]
    | prepend =>
      rw [if_pos rfl, if_neg (by decide), List.reverse_cons, List.flatten_append, List.flatten_singleton, Merge.join]
      simp only [List.append_assoc]
  · rw [List.flatMap_cons, ← List.append_assoc]
    exact hm.flat.trans ((flat_mergeAll call.mode).append_right _)

/-- A call that fails leaves no trace, one that succeeds is as if it were made in one step. -/
theorem after_cons (h : History) (call : Call) (calls : List Call) : h.after (call :: calls) =
    match h.updateAdjustments call.incoming call.mode with
      | .ok h' => h'.after calls
      | .error _ => h.after calls := by
  show after ((mergeInPlace call.incoming call.mode).run.run h).2 calls = _
  rw [run_mergeInPlace]
  cases h.updateAdjustments call.incoming call.mode <;> rfl

theorem Merged.of_calls (ho : h.adjustments.Ordered) {calls : List Call}
    (hc : ∀ call ∈ calls, call.incoming.Ordered) : Merged h (h.successes calls) (h.after calls) := by
  induction calls generalizing h with
  | nil => exact .nil ho
  | cons call calls ih =>
    obtain ⟨hi, hc⟩ := List.forall_mem_cons.1 hc
    rw [after_cons, successes]
    cases hu : h.updateAdjustments call.incoming call.mode with
    | error err => exact ih ho hc
    | ok h₁ =>
      have ho₁ : h₁.adjustments.Ordered := by
        obtain ⟨-, rfl⟩ := updateAdjustments_eq_ok.1 hu
        exact ho.mergeAll _ _
      exact .cons ho hi hu (ih ho₁ hc)

/-! ## What is held -/

/-- A history that no call has changed yet. -/
inductive Fresh : History → Prop
  | new {b : Block} {adjustments : Adjustments} {missing : Scalar} {h : History} (hg : adjustments.Given)
      (hh : mk? b adjustments missing = .ok h) : Fresh h
  | unadjusted {b : Block} {missing : Scalar} {h : History} (hh : unadjusted b missing = .ok h) : Fresh h
  | allMissing (missing : Scalar) (shape : Nat × Nat) : Fresh (allMissing missing shape)

/-- The keys ascend, and every adjustment is one that the block takes, keyed at one of its rows. -/
structure Sound (h : History) : Prop where
  ordered : h.adjustments.Ordered
  key_lt : ∀ x ∈ h.adjustments.flat, x.1 < h.block.nrows
  accepted : AllAccepted h.adjustments.flat h.block

theorem Sound.of_flat_eq_nil (h : History) (he : h.adjustments = []) : h.Sound := by
  refine ⟨he ▸ List.Pairwise.nil, ?_, ?_⟩ <;> rw [he] <;> exact nofun

theorem accepted_of_validate {b : Block} {m : Adjustments} (hg : m.Given) (hv : validate b m = .ok ()) :
    AllAccepted m.flat b := fun x hx =>
  have ⟨_, hfits, hdtype⟩ := validate_eq_ok.1 hv x hx
  ⟨hg.made x hx, hfits, hdtype⟩

theorem Fresh.sound (hh : Fresh h) : h.Sound := by
  cases hh with
  | new hg hh =>
    obtain ⟨-, hv, rfl⟩ := mk?_eq_ok.1 hh
    exact ⟨hg.ordered, fun x hx => (validate_eq_ok.1 hv x hx).1, accepted_of_validate hg hv⟩
  | unadjusted hh =>
    obtain ⟨-, -, rfl⟩ := mk?_eq_ok.1 hh
    exact .of_flat_eq_nil _ rfl
  | allMissing missing shape => exact .of_flat_eq_nil _ rfl

/-- What a call keeps. -/
theorem Sound.update (hs : h.Sound) {incoming : Adjustments} (hg : incoming.Given) {mode : Merge}
    (hu : h.updateAdjustments incoming mode = .ok h') : h'.Sound := by
  obtain ⟨hv, rfl⟩ := updateAdjustments_eq_ok.1 hu
  have hmem {x : Nat × Adjustment} (hx : x ∈ (mergeAll mode incoming h.adjustments).flat) :
      x ∈ h.adjustments.flat ∨ x ∈ incoming.flat := List.mem_append.1 ((flat_mergeAll mode).mem_iff.1 hx)
  refine ⟨hs.ordered.mergeAll _ _, fun x hx => ?_, fun x hx => ?_⟩
  · exact (hmem hx).elim (hs.key_lt x) fun hx => (validate_eq_ok.1 hv x hx).1
  · exact (hmem hx).elim (hs.accepted x) (accepted_of_validate hg hv x)

theorem Sound.after (hs : h.Sound) {calls : List Call} (hc : ∀ call ∈ calls, call.incoming.Given) :
    (h.after calls).Sound := by
  induction calls generalizing h with
  | nil => exact hs
  | cons call calls ih =>
    obtain ⟨hg, hc⟩ := List.forall_mem_cons.1 hc
    rw [after_cons]
    cases hu : h.updateAdjustments call.incoming call.mode with
    | error err => exact ih hs hc
    | ok h₁ => exact ih (hs.update hg hu) hc

/-! ## What is read -/

/-- No adjustment is ignored, no operand replaced, and no rectangle or window cut off, whatever is
read and whatever moves are made. -/
structure ReadsSafely (h : History) : Prop where
  adjusted : appliedAll? h.adjustments.flat h.block = some h.adjusted
  applies : ∀ window offset perspective c, h.traverse window offset perspective = .ok c → ∀ moves horizon,
    Cursor.appliedBefore? horizon (c.after moves).pending (c.after moves).block =
      some (Cursor.applyBefore horizon (c.after moves).pending (c.after moves).block)
  /-- Where the end of the first window does not wrap. -/
  windows : h.block.nrows < 0x8000000000000000 → ∀ window offset perspective c,
    h.traverse window offset perspective = .ok c → offset.toNat + window.toNat < 0x10000000000000000 →
    ∀ moves, (c.after moves).next? ≠ none →
      (c.after moves).firstRow ≤ (c.after moves).anchor.toNat ∧ (c.after moves).anchor.toNat ≤ h.block.nrows

theorem Sound.readsSafely (hs : h.Sound) : h.ReadsSafely where
  adjusted := appliedAll?_eq hs.accepted
  applies window offset perspective c hc moves horizon := by
    obtain ⟨-, -, rfl⟩ := traverse_eq_ok.1 hc
    have hready : (Cursor.start h.block h.adjustments.flat window offset perspective).Ready := hs.accepted
    exact Cursor.appliedBefore?_eq horizon (hready.after moves)
  windows hn window offset perspective c hc hsum moves hnext := by
    obtain ⟨-, -, rfl⟩ := traverse_eq_ok.1 hc
    have hroom : Cursor.Room h.block.nrows (.start h.block h.adjustments.flat window offset perspective) := by
      refine ⟨UInt64.le_iff_toNat_le.2 ?_, rfl⟩
      show window.toNat ≤ (offset + window).toNat
      rw [UInt64.toNat_add, Nat.mod_eq_of_lt hsum]
      exact Nat.le_add_left _ _
    exact (hroom.after hn moves).firstRow_le hn hnext

/-- A call that fails leaves the history as it was. After any calls the list of a key is made of
those that were put before it, the last one first, the list that was there, and those that were
put behind it, and every adjustment that is held is one that the block takes. -/
theorem merging_keeps_order (hh : Fresh h) {calls : List Call} (hc : ∀ call ∈ calls, call.incoming.Given) :
    (∀ (h : History) (incoming : Adjustments) (mode : Merge), (mergeInPlace incoming mode).run.run h =
      match h.updateAdjustments incoming mode with
      | .ok h' => (.ok (), h')
      | .error err => (.error err, h)) ∧
    Merged h (h.successes calls) (h.after calls) ∧
    (∀ x ∈ (h.after calls).adjustments.flat, x.1 < (h.after calls).block.nrows ∧
      x.2.fits (h.after calls).shape = true ∧ x.2.checkDtype (h.after calls).dtype = .ok ()) ∧
    (h.after calls).ReadsSafely := by
  have hs := hh.sound.after hc
  refine ⟨fun h incoming mode => run_mergeInPlace incoming mode h,
    .of_calls hh.sound.ordered fun call hcall => (hc call hcall).ordered, fun x hx => ?_, hs.readsSafely⟩
  exact ⟨hs.key_lt x hx, (hs.accepted x hx).fits, (hs.accepted x hx).dtype⟩

/-! Calls on four numbers. -/

/-- One number for the rows down to `last`. -/
def topRows (last : Nat) (n : Int64) : Adjustment := ⟨0, last, 0, 0, .overwrite (.int n)⟩

theorem topRows_made (last : Nat) (n : Int64) : (topRows last n).Made := by
  refine ⟨(0, last), (0, 0), .overwrite (.int n), ?_⟩
  rw [Adjustment.mk?, if_neg (by simp)]
  rfl

/-- A number for each of two rows. -/
def twoRows : Adjustment := ⟨0, 1, 0, 0, .overwriteRows [.int 3, .int 4]⟩

/-- Before, behind, behind at a row that is not there, and before. -/
def fourCalls : List Call :=
  [⟨[(1, [topRows 0 7])], .prepend⟩, ⟨[(1, [topRows 0 8]), (2, [topRows 2 6])], .append⟩,
    ⟨[(1, [topRows 1 2]), (9, [topRows 0 3])], .append⟩, ⟨[(1, [twoRows])], .prepend⟩]

theorem fourCalls_given : ∀ call ∈ fourCalls, call.incoming.Given := by
  have hmade : ∀ call ∈ fourCalls, ∀ x ∈ call.incoming.flat, x.2.Made := by
    simp only [fourCalls, flat, List.forall_mem_cons, List.flatMap_cons, List.flatMap_nil, List.map_cons,
      List.map_nil, List.cons_append, List.nil_append]
    have hnone {x : Nat × Adjustment} (hx : x ∈ []) : x.2.Made := absurd hx List.not_mem_nil
    exact ⟨⟨topRows_made 0 7, fun _ => hnone⟩, ⟨topRows_made 0 8, topRows_made 2 6, fun _ => hnone⟩,
      ⟨topRows_made 1 2, topRows_made 0 3, fun _ => hnone⟩,
      ⟨⟨(0, 1), (0, 0), .overwriteRows [.int 3, .int 4], rfl⟩, fun _ => hnone⟩, fun _ h => absurd h List.not_mem_nil⟩
  have hordered : ∀ call ∈ fourCalls, call.incoming.Ordered := by
    unfold Ordered
    decide
  exact fun call hcall => ⟨hordered call hcall, hmade call hcall⟩

/-- The third call fails, so that nothing of it is held; the others stand around what was there. -/
theorem merging_keeps_order_fourCalls :
    let h : History := ⟨.full (.int 1) (4, 1), [(1, [topRows 0 5])], .int 0⟩
    Fresh h ∧ (∀ call ∈ fourCalls, call.incoming.Given) ∧ (h.successes fourCalls).length = 3 ∧
    (h.after fourCalls).adjustments.held 1 = [twoRows, topRows 0 7, topRows 0 5, topRows 0 8] ∧
    appliedAll? (h.after fourCalls).adjustments.flat (h.after fourCalls).block =
      some (h.after fourCalls).adjusted := by
  intro h
  have hgiven : Given [(1, [topRows 0 5])] :=
    ⟨List.pairwise_singleton _ _, List.forall_mem_singleton.2 (topRows_made 0 5)⟩
  have hfresh : Fresh h := .new hgiven (show mk? (.full (.int 1) (4, 1)) _ (.int 0) = .ok h from rfl)
  obtain ⟨-, hmerged, -, hreads⟩ := merging_keeps_order hfresh fourCalls_given
  exact ⟨hfresh, fourCalls_given, rfl, hmerged.held 1, hreads.adjusted⟩

end History
end AsOf
