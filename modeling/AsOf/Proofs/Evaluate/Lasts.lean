import AsOf.Proofs.Checked
import AsOf.Proofs.History
import AsOf.Term.Evaluate

/-!
# Inputs that last

An input lasts for some rows if it is a block, or a cursor that shows a window for each of
them. Evaluating a term from inputs that last as long as its context can fail for many
reasons, but never because a window has ended or would be too long.

* `ends_overRows`: reading windows row by row.
* `ends_evaluate`: evaluating a term.
-/
namespace AsOf

/-- A window has ended or is too long. -/
def ArrayError.RunsOut : ArrayError → Prop
  | windowLengthTooLong _ _ _ => True
  | _ => False

def EvalError.RunsOut : EvalError → Prop
  | windowExhausted _ _ _ => True
  | array e => e.RunsOut
  | _ => False

/-! ## Blocks -/

namespace Labels

theorem ends_recodeAll (ncols : Nat) (d : Dictionary) (parts : List Labels) :
    Checked.Ends (fun _ => True) (¬·.RunsOut) (recodeAll ncols d parts) := by
  induction parts generalizing d with
  | nil => trivial
  | cons part parts ih =>
    rw [recodeAll]
    by_cases hn : part.shape.2 ≠ ncols
    · rw [if_pos hn]
      exact id
    · rw [if_neg hn]
      exact (ih _).bind fun _ _ => trivial

theorem ends_concatRows (parts : List Labels) :
    Checked.Ends (fun _ => True) (¬·.RunsOut) (Labels.concatRows parts) := by
  cases parts with
  | nil => trivial
  | cons first rest => exact (ends_recodeAll ..).bind fun _ _ => trivial

end Labels

namespace Block

theorem ends_expect (s : Scalar) (dtype : Dtype) : Checked.Ends (fun _ => True) (¬·.RunsOut) (s.expect dtype) := by
  unfold Scalar.expect
  split
  · trivial
  · exact id

theorem ends_concatRows (parts : List Block) :
    Checked.Ends (fun _ => True) (¬·.RunsOut) (Block.concatRows parts) := by
  cases parts with
  | nil => exact id
  | cons first rest =>
    unfold concatRows
    cases htype : (first :: rest).find? (·.dtype != first.dtype) with
    | some other =>
      simp only [htype]
      exact id
    | none =>
      cases hwidth : (first :: rest).find? (·.ncols != first.ncols) with
      | some other =>
        simp only [htype, hwidth]
        exact id
      | none =>
        simp only [htype, hwidth]
        cases first with
        | labels a => exact (Labels.ends_concatRows _).bind fun _ _ => trivial
        | floats | ints | bools | times => trivial

theorem ends_whereMask (b : Block) (mask : Grid Bool) (missing : Scalar) :
    Checked.Ends (fun _ => True) (¬·.RunsOut) (b.whereMask mask missing) := by
  unfold whereMask
  by_cases hs : mask.shape ≠ b.shape
  · rw [if_pos hs]
    exact id
  · rw [if_neg hs]
    refine (ends_expect missing b.dtype).bind fun _ _ => ?_
    split
    · trivial
    · trivial
    · trivial
    · trivial
    · trivial
    · exact id

end Block

/-! ## Windows -/

/-- A cursor shows a window for each of some rows. -/
def Cursor.Lasts (c : Cursor) (n : Nat) : Prop := ∃ windows, c.Shows windows n

theorem Cursor.Lasts.next {c : Cursor} {n : Nat} (h : c.Lasts (n + 1)) :
    ∃ window c', c.next? = some (window, c') ∧ c'.Lasts n := by
  obtain ⟨windows, c', hnext, hshows⟩ := h
  exact ⟨windows 0, c', hnext, _, hshows⟩

def Input.Lasts (n : Nat) : Input → Prop
  | .block _ => True
  | .window c => c.Lasts n

namespace Evaluate

variable {t : Term} {inputs : List Input} {ctx : Context}

theorem ends_advance {α : Type} {f : Nat → Block → Except EvalError α}
    (hf : ∀ index b, Checked.Ends (fun _ => True) (¬·.RunsOut) (f index b)) (row : Nat) {n : Nat} (index : Nat)
    {cursors : List Cursor} (hc : ∀ c ∈ cursors, c.Lasts (n + 1)) :
    Checked.Ends (fun x => ∀ c ∈ x.2, c.Lasts n) (¬·.RunsOut) (advance t f row index cursors) := by
  induction cursors generalizing index with
  | nil => exact fun _ h => nomatch h
  | cons c rest ih =>
    obtain ⟨window, c', hnext, hlasts⟩ := (hc c List.mem_cons_self).next
    rw [advance, hnext]
    refine (hf index window).bind fun x _ =>
      (ih (index + 1) fun c hc' => hc c (List.mem_cons_of_mem _ hc')).bind fun y hy => ?_
    intro c hmem
    rcases List.mem_cons.1 hmem with rfl | hmem
    · exact hlasts
    · exact hy c hmem

/-- Every row finds a window of every cursor. -/
theorem ends_overRows {α β : Type} {f : Nat → Nat → Block → Except EvalError α}
    {combine : Nat → List α → Except EvalError β}
    (hf : ∀ row index b, Checked.Ends (fun _ => True) (¬·.RunsOut) (f row index b))
    (hcombine : ∀ row xs, Checked.Ends (fun _ => True) (¬·.RunsOut) (combine row xs)) (rows : List Nat)
    {cursors : List Cursor} (hc : ∀ c ∈ cursors, c.Lasts rows.length) :
    Checked.Ends (fun _ => True) (¬·.RunsOut) (overRows t f combine rows cursors) := by
  induction rows generalizing cursors with
  | nil => trivial
  | cons row rows ih =>
    rw [overRows]
    exact (ends_advance (hf row) row 0 hc).bind fun x hx => (hcombine row x.1).bind fun y _ =>
      (ih hx).bind fun _ _ => trivial

theorem ends_cursors {n : Nat} (h : ∀ x ∈ inputs, x.Lasts n) :
    Checked.Ends (fun cs => ∀ c ∈ cs, c.Lasts n) (¬·.RunsOut) (cursors t inputs) := by
  refine Checked.ends_mapM fun (x, index) hx => ?_
  have hlasts := h x (List.fst_mem_of_mem_zipIdx hx)
  cases x with
  | block b => exact id
  | window c => exact hlasts

theorem ends_latest {shape : Nat × Nat} {cursors : List Cursor} (hc : ∀ c ∈ cursors, c.Lasts shape.1) :
    Checked.Ends (fun _ => True) (¬·.RunsOut) (latest t shape cursors) := by
  unfold latest
  split
  · exact id
  · rename_i cursor _
    refine (ends_overRows (fun _ _ _ => by trivial) (fun _ _ => by trivial) _ fun c hmem => ?_).bind fun rows _ => ?_
    · rw [List.length_range, List.mem_singleton.1 hmem]
      exact hc cursor List.mem_cons_self
    · split
      · trivial
      · exact (Block.ends_concatRows _).mapError fun _ => id

theorem ends_numbers (index : Nat) (b : Block) :
    Checked.Ends (fun _ => True) (¬·.RunsOut) (numbers t index b) := by
  unfold numbers
  split
  · trivial
  · exact id

theorem ends_windowed (k : WindowKernel) {cursors : List Cursor} (hc : ∀ c ∈ cursors, c.Lasts ctx.shape.1) :
    Checked.Ends (fun _ => True) (¬·.RunsOut) (windowed t k ctx cursors) :=
  (ends_overRows (fun _ index b => ends_numbers index _) (fun _ _ => by trivial) _ fun c hmem => by
    rw [List.length_range]
    exact hc c hmem).bind fun _ _ => trivial

theorem ends_customRow (k : RowKernel) (row : Nat) (windows : List Block) :
    Checked.Ends (fun _ => True) (¬·.RunsOut) (customRow t k ctx row windows) := by
  unfold customRow
  extract_lets cols sids
  cases k.compute (ctx.dates.getD row ⟨0⟩) sids windows with
  | error reason => exact id
  | ok values =>
    by_cases hv : (decide (values.length ≠ cols.length) || decide (values.dtype ≠ t.dtype)) = true
    · simp only [if_pos hv]
      exact id
    · simp only [if_neg hv]
      trivial

theorem ends_custom (k : RowKernel) {cursors : List Cursor} (hc : ∀ c ∈ cursors, c.Lasts ctx.shape.1) :
    Checked.Ends (fun _ => True) (¬·.RunsOut) (custom t k ctx cursors) :=
  (ends_overRows (fun _ _ _ => by trivial) (fun row => ends_customRow k row) _ fun c hmem => by
    rw [List.length_range]
    exact hc c hmem).bind fun _ _ => trivial

/-! ## Blocks -/

theorem ends_blocks (shape : Nat × Nat) : Checked.Ends (fun _ => True) (¬·.RunsOut) (blocks t shape inputs) := by
  refine (Checked.ends_mapM (B := fun _ => True) fun (x, index) _ => ?_).mono fun _ _ => trivial
  cases x with
  | window c => exact id
  | block b =>
    show Checked.Ends _ _ (if b.shape = shape then _ else _)
    split
    · trivial
    · exact id

theorem ends_crossSection (grouped : Bool) :
    Checked.Ends (fun _ => True) (¬·.RunsOut) (crossSection t ctx grouped inputs) := by
  refine (ends_blocks ctx.shape).bind fun bs _ => (ends_numbers 0 _).bind fun values _ => ?_
  split
  · trivial
  · split
    · split
      · trivial
      · exact id
    · exact id

theorem ends_single (shape : Nat × Nat) : Checked.Ends (fun _ => True) (¬·.RunsOut) (single t shape inputs) := by
  refine (ends_blocks shape).bind fun bs _ => ?_
  split
  · trivial
  · exact id

theorem ends_labelTest (test : LabelTest) (missing : Scalar) (b : Block) :
    Checked.Ends (fun _ => True) (¬·.RunsOut) (labelTest t test missing b) := by
  unfold labelTest
  extract_lets tested
  cases tested with
  | some g => trivial
  | none => exact id

theorem ends_masked (b : Block) (mask : Grid Bool) (missing : Scalar) :
    Checked.Ends (fun _ => True) (¬·.RunsOut) ((b.whereMask mask missing).mapError EvalError.array) :=
  (b.ends_whereMask mask missing).mapError fun _ => id

/-! ## All kinds -/

theorem ends_unmasked (h : ∀ x ∈ inputs, x.Lasts ctx.shape.1) :
    Checked.Ends (fun _ => True) (¬·.RunsOut) (unmasked t inputs ctx) := by
  unfold unmasked
  split
  · exact id
  · exact id
  · trivial
  · trivial
  · exact (ends_cursors h).bind fun _ hc => ends_latest hc
  · exact (ends_cursors h).bind fun _ hc => ends_windowed _ hc
  · exact (ends_cursors h).bind fun _ hc => ends_custom _ hc
  · exact (ends_blocks _).bind fun bs _ => (Checked.ends_mapM (B := fun _ => True)
      fun (b, index) _ => ends_numbers index b).bind fun _ _ => trivial
  · exact (ends_crossSection _).bind fun _ _ => trivial
  · exact (ends_crossSection _).bind fun _ _ => trivial
  · exact (ends_crossSection _).bind fun _ _ => trivial
  · exact (ends_crossSection _).bind fun _ _ => trivial
  · exact (ends_single _).bind fun _ _ => trivial
  · exact (ends_single _).bind fun _ _ => ends_masked ..
  · exact (ends_single _).bind fun _ _ => ends_labelTest ..

end Evaluate

/-- A term whose inputs last as long as its context runs out of no window. -/
theorem ends_evaluate {t : Term} {inputs : List Input} {ctx : Context}
    (h : ∀ x ∈ inputs, x.Lasts ctx.dates.length) :
    Checked.Ends (fun _ => True) (¬·.RunsOut) (evaluate t inputs ctx) := by
  unfold evaluate
  by_cases hm : ctx.mask.shape ≠ ctx.shape
  · rw [if_pos hm]
    exact id
  by_cases hi : inputs.length ≠ t.inputs.length
  · rw [if_neg hm]
    simp only [if_pos hi]
    exact id
  rw [if_neg hm]
  simp only [if_neg hi]
  refine (Evaluate.ends_unmasked h).bind fun out _ => ?_
  by_cases hs : out.shape ≠ ctx.shape
  · rw [if_pos hs]
    exact id
  · rw [if_neg hs]
    exact Evaluate.ends_masked ..

end AsOf
