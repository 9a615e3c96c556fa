import AsOf.Graph.Plan
import AsOf.Proofs.Checked
import AsOf.Proofs.Row

/-!
# What a graph means

A `World` says, session by session, which assets are alive and what the columns of a
graph tell about each of them. `TermGraph.strand` is what every node of the graph is in
a world: the values of a session as known on a later one, and none where they cannot be
computed. It knows nothing of chunks, of histories or of which other assets are at hand.

* `TermGraph.strand_computed`: a computed node is its term over the strands it reads.
* `TermGraph.strand_congr`: what is known on a session depends on no later one.
-/
namespace AsOf

/-- What there is to know, by session. -/
structure World where
  date : Nat → Date
  /-- The assets that are alive on a session, each once. -/
  live : Nat → List Sid
  /-- The cell of a column, by its node, for a session as known on a later one. -/
  known : (node session asOf : Nat) → Sid → Scalar

/-- What a node is. -/
structure Strand where
  dtype : Dtype
  /-- The values for a session as known on a later one. -/
  row? : (session asOf : Nat) → Option (Sid → Scalar)

/-- What some assets see of rows that are given by asset. -/
def Sight.ofRows (windowed : Bool) (dtype : Dtype) (assets : List Sid) (rows : List (Sid → Scalar)) :
    Sight :=
  ⟨windowed, dtype, .ofFn rows.length assets.length fun i j => rows[i] assets[j]⟩

namespace Strand

/-- The strand of a node that cannot be computed. -/
def void : Strand := ⟨.bool, fun _ _ => none⟩

/-- The sessions in a window that ends with a session. A window that would begin before
the first session shows none. -/
def sessionsIn (window : UInt64) (r : Nat) : List Nat :=
  if window.toNat ≤ r + 1 then List.range' (r + 1 - window.toNat) window.toNat else []

/-- What a reader sees on a session: its row, or a window that ends with it. -/
def sight? (s : Strand) (window : UInt64) (assets : List Sid) (r : Nat) : Option Sight :=
  if window = 0 then (s.row? r r).map fun x => .ofRows false s.dtype assets [x]
  else ((sessionsIn window r).mapM fun q => s.row? q r).map (.ofRows true s.dtype assets)

/-- The assets that a mask lets through on a session. -/
def passes? (s : Strand) (r : Nat) : Option (Sid → Bool) :=
  if s.dtype = .bool then (s.row? r r).map fun x sid => (x sid).asBool?.getD false else none

end Strand

/-- The values of a computed term on a session, over the strands that it reads. -/
def Term.rowAt? (t : Term) (w : World) (masks inputs : List Strand) (r : Nat) :
    Option (Sid → Scalar) := do
  let passes ← masks.mapM (·.passes? r)
  let assets := (w.live r).filter fun sid => passes.all (· sid)
  let seen ← inputs.mapM (·.sight? t.window assets r)
  let values ← t.row? (w.date r) assets seen
  return fun sid => ((assets.zip values).lookup sid).getD t.missing

namespace TermGraph

/-- A node that is not computed: the existence of assets, or a column. -/
def isGiven (g : TermGraph) (node : Nat) (t : Term) : Bool :=
  g.index? Term.assetExists == some node || t.column?.isSome

/-- What a node is in a world. -/
def strand (g : TermGraph) (w : World) (node : Nat) : Strand :=
  let read (e : Edge) : Strand := if _h : e.node < node then g.strand w e.node else .void
  match g.terms[node]? with
  | none => .void
  | some t =>
    if g.index? Term.assetExists = some node then
      ⟨.bool, fun r _ => some fun sid => .bool ((w.live r).contains sid)⟩
    else match t.column? with
      | some c => ⟨c.dtype, fun r p => some (w.known node r p)⟩
      | none => ⟨t.missing.dtype, fun r _ => t.rowAt? w
          (((g.edgesOf node).filter (·.isMask)).map read)
          (((g.edgesOf node).filter (!·.isMask)).map read) r⟩
termination_by node

variable {g : TermGraph} {w w' : World}

/-- The strands that a node reads as masks, or as inputs. -/
def strands (g : TermGraph) (w : World) (node : Nat) (isMask : Bool) : List Strand :=
  ((g.edgesOf node).filter (·.isMask == isMask)).map fun e => g.strand w e.node

theorem strand_assetExists {node : Nat} {t : Term} (ht : g.terms[node]? = some t)
    (hn : g.index? Term.assetExists = some node) :
    g.strand w node = ⟨.bool, fun r _ => some fun sid => .bool ((w.live r).contains sid)⟩ := by
  rw [strand, ht]
  exact if_pos hn

theorem strand_column {node : Nat} {t : Term} {c : Column} (ht : g.terms[node]? = some t)
    (hn : g.index? Term.assetExists ≠ some node) (hc : t.column? = some c) :
    g.strand w node = ⟨c.dtype, fun r p => some (w.known node r p)⟩ := by
  rw [strand, ht]
  simp only [if_neg hn, hc]

/-- Where edges lead to smaller nodes, a computed node is its term over what it reads. -/
theorem strand_computed {node : Nat} {t : Term} (ht : g.terms[node]? = some t)
    (hg : g.isGiven node t = false) (hlt : ∀ e ∈ g.edgesOf node, e.node < node) :
    g.strand w node = ⟨t.missing.dtype, fun r _ =>
      t.rowAt? w (g.strands w node true) (g.strands w node false) r⟩ := by
  have hread (isMask : Bool) : ((g.edgesOf node).filter (·.isMask == isMask)).map
      (fun e => if _h : e.node < node then g.strand w e.node else .void) = g.strands w node isMask :=
    List.map_congr_left fun e he => dif_pos (hlt e (List.mem_filter.1 he).1)
  have hm : (g.edgesOf node).filter (·.isMask) = (g.edgesOf node).filter (·.isMask == true) :=
    List.filter_congr fun e _ => by rw [beq_true]
  have hi : (g.edgesOf node).filter (!·.isMask) = (g.edgesOf node).filter (·.isMask == false) :=
    List.filter_congr fun e _ => by rw [beq_false]
  rw [isGiven, Bool.or_eq_false_iff, beq_eq_false_iff_ne, Option.isSome_eq_false_iff,
    Option.isNone_iff_eq_none] at hg
  rw [strand, ht]
  simp only [hm, hi, hread, if_neg hg.1, hg.2]

/-- The type of what a node is, in every world. -/
def dtypeOf (g : TermGraph) (node : Nat) : Dtype :=
  match g.terms[node]? with
  | none => .bool
  | some t =>
    if g.index? Term.assetExists = some node then .bool
    else match t.column? with
      | some c => c.dtype
      | none => t.missing.dtype

theorem dtype_strand (g : TermGraph) (w : World) (node : Nat) : (g.strand w node).dtype = g.dtypeOf node := by
  rw [strand, dtypeOf]
  cases g.terms[node]? with
  | none => rfl
  | some t =>
    by_cases hn : g.index? Term.assetExists = some node
    · simp only [if_pos hn]
    · simp only [if_neg hn]
      cases t.column? <;> rfl

end TermGraph

/-! ## Up to a session -/

/-- Two worlds are one up to a session. -/
structure World.AgreeUpTo (s : Nat) (w w' : World) : Prop where
  date : ∀ r ≤ s, w.date r = w'.date r
  live : ∀ r ≤ s, w.live r = w'.live r
  known : ∀ node r p, r ≤ p → p ≤ s → w.known node r p = w'.known node r p

/-- Two strands are one up to a session. -/
structure Strand.AgreeUpTo (s : Nat) (a b : Strand) : Prop where
  dtype : a.dtype = b.dtype
  row? : ∀ r p, r ≤ p → p ≤ s → a.row? r p = b.row? r p

namespace Strand

variable {s r : Nat} {a b : Strand}

theorem AgreeUpTo.refl (a : Strand) : a.AgreeUpTo s a := ⟨rfl, fun _ _ _ _ => rfl⟩

theorem le_of_mem_sessionsIn {window : UInt64} {q : Nat} (h : q ∈ sessionsIn window r) : q ≤ r := by
  unfold sessionsIn at h
  split at h
  · have := (List.mem_range'_1.1 h).2
    omega
  · cases h

theorem AgreeUpTo.sight? (h : a.AgreeUpTo s b) (hr : r ≤ s) (window : UInt64) (assets : List Sid) :
    a.sight? window assets r = b.sight? window assets r := by
  unfold Strand.sight?
  rw [h.dtype, h.row? r r (Nat.le_refl r) hr,
    Checked.mapM_congr fun q hq => h.row? q r (le_of_mem_sessionsIn hq) hr]

theorem AgreeUpTo.passes? (h : a.AgreeUpTo s b) (hr : r ≤ s) : a.passes? r = b.passes? r := by
  unfold Strand.passes?
  rw [h.dtype, h.row? r r (Nat.le_refl r) hr]

end Strand

namespace TermGraph

/-- What a node is on a session depends on no later session. -/
theorem strand_congr (g : TermGraph) {w w' : World} {s : Nat} (hw : w.AgreeUpTo s w') (node : Nat)
    (hlt : ∀ node, ∀ e ∈ g.edgesOf node, e.node < node) :
    (g.strand w node).AgreeUpTo s (g.strand w' node) := by
  induction node using Nat.strong_induction_on with
  | _ node ih =>
    cases ht : g.terms[node]? with
    | none =>
      rw [strand, strand, ht]
      exact .refl _
    | some t =>
      by_cases hn : g.index? Term.assetExists = some node
      · rw [strand_assetExists ht hn, strand_assetExists ht hn]
        exact ⟨rfl, fun r p hrp hp => by simp only [hw.live r (by omega)]⟩
      cases hc : t.column? with
      | some c =>
        rw [strand_column ht hn hc, strand_column ht hn hc]
        exact ⟨rfl, fun r p hrp hp => congrArg some (hw.known node r p hrp hp)⟩
      | none =>
        have hg : g.isGiven node t = false := by
          rw [isGiven, hc, Option.isSome_none, Bool.or_false]
          exact beq_false_of_ne hn
        rw [strand_computed ht hg (hlt node), strand_computed ht hg (hlt node)]
        refine ⟨rfl, fun r p hrp hp => ?_⟩
        have hr : r ≤ s := by omega
        have hread (isMask : Bool) (e : Edge) (he : e ∈ (g.edgesOf node).filter (·.isMask == isMask)) :
            (g.strand w e.node).AgreeUpTo s (g.strand w' e.node) :=
          ih e.node (hlt node e (List.mem_filter.1 he).1)
        have hmasks : (g.strands w node true).mapM (·.passes? r) =
            (g.strands w' node true).mapM (·.passes? r) := by
          rw [strands, strands, List.mapM_map, List.mapM_map]
          exact Checked.mapM_congr fun e he => (hread true e he).passes? hr
        have hinputs (assets : List Sid) : (g.strands w node false).mapM (·.sight? t.window assets r) =
            (g.strands w' node false).mapM (·.sight? t.window assets r) := by
          rw [strands, strands, List.mapM_map, List.mapM_map]
          exact Checked.mapM_congr fun e he => (hread false e he).sight? hr t.window assets
        simp only [Term.rowAt?, hmasks, hinputs, hw.date r hr, hw.live r hr]

end TermGraph
end AsOf
