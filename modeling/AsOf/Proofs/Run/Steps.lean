import AsOf.Proofs.Graph.Paths
import AsOf.Proofs.Run.Assemble
import Mathlib.Data.List.Count

/-!
# Schedules of a chunk

A schedule is a list of steps: some nodes are computed from the workspace as it stands, or a
reader of a node is counted as done. It is orderly if it computes all nodes, each after what it
reads and before anything that it reads has lost its last reader, and counts the last reader of
a node only after all of them are computed. Every orderly schedule comes to the same values,
and none of them misses one.

* `Plan.orderly_steps`: the levels in turn, each in any order, with release or without.
* `Plan.Denotes.unique`: what a node denotes depends on what is given alone.
* `Plan.foldlM_exec`: what a schedule leaves standing.
* `Plan.complete_spec`: the result of an orderly schedule.
-/
namespace AsOf

theorem split_flatMap {α β : Type} {f : α → List β} {xs : List α} {before after : List β} {y : β}
    (h : xs.flatMap f = before ++ y :: after) :
    ∃ xs₁ x xs₂ before' after', xs = xs₁ ++ x :: xs₂ ∧ f x = before' ++ y :: after' ∧
      before = xs₁.flatMap f ++ before' ∧ after = after' ++ xs₂.flatMap f := by
  induction xs generalizing before with
  | nil => exact absurd h (by simp)
  | cons x xs ih =>
    rw [List.flatMap_cons, List.append_eq_append_iff] at h
    rcases h with ⟨rest, rfl, h⟩ | ⟨rest, hx, h⟩
    · obtain ⟨xs₁, x', xs₂, before', after', rfl, hx', rfl, rfl⟩ := ih h
      exact ⟨x :: xs₁, x', xs₂, before', after', rfl, hx', by rw [List.flatMap_cons, List.append_assoc], rfl⟩
    · cases rest with
      | nil =>
        obtain ⟨xs₁, x', xs₂, before', after', rfl, hx', hbefore, rfl⟩ := @ih [] h.symm
        rw [List.append_nil] at hx
        refine ⟨x :: xs₁, x', xs₂, before', after', rfl, hx', ?_, rfl⟩
        rw [List.flatMap_cons, List.append_assoc, ← hbefore, List.append_nil, hx]
      | cons z rest =>
        obtain ⟨rfl, rfl⟩ := List.cons.inj h
        exact ⟨[], x, xs, before, rest, rfl, hx, rfl, rfl⟩

/-- A value is missing that something reads. -/
def RunError.IsMissing : RunError → Prop
  | missingDependency _ _ => True
  | _ => False

/-- What may go wrong once a run has been checked: a loader refuses, or values do not suit. -/
def RunError.AtWork : RunError → Prop
  | load _ | eval _ | array _ | output _ => True
  | _ => False

theorem RunError.AtWork.not_missing {err : RunError} (h : err.AtWork) : ¬err.IsMissing := by
  cases err with
  | missingDependency => exact absurd h id
  | _ => exact id

namespace Plan

variable {p : Plan}

/-! ## Steps -/

/-- A step of a schedule. -/
inductive Step where
  /-- The values of those nodes that are not yet known are computed. -/
  | compute (nodes : List Nat)
  /-- One more reader of the node is done. -/
  | count (node : Nat)
deriving DecidableEq

/-- Works off a step. -/
def exec (p : Plan) (c : Chunk) (state : Workspace × Array Nat) : Step → Except RunError (Workspace × Array Nat)
  | .compute nodes => do return (← p.computeLevel c state.1 nodes, state.2)
  | .count node => .ok (p.releaseNode state node)

/-- The steps of a level whose nodes are computed in some order. -/
def turn (p : Plan) (release : Bool) (x : List Nat × List Nat) : List Step :=
  .compute x.1 :: if release then (x.2.flatMap p.graph.readBy).map .count else []

/-- The levels in turn, with an order for each of them. -/
def steps (p : Plan) (release : Bool) (orders : List (List Nat)) : List Step :=
  (orders.zip p.byLevel).flatMap (p.turn release)

/-- A node is among those that some of the steps compute. -/
def Computed (done : List Step) (node : Nat) : Prop := ∃ nodes, .compute nodes ∈ done ∧ node ∈ nodes

/-- What is so before a step of an orderly schedule. -/
def Due (p : Plan) (done : List Step) : Step → Prop
  | .compute nodes => ∀ node ∈ nodes, node < p.size ∧ .count node ∉ done ∧
      ∀ dep ∈ p.graph.readBy node, Computed done dep ∧ done.count (.count dep) < p.readers dep
  | .count node => done.count (.count node) < p.readers node ∧
      (done.count (.count node) + 1 = p.readers node →
        ∀ reader < p.size, node ∈ p.graph.readBy reader → Computed done reader)

/-- Every step is due, and every node is computed. -/
structure Orderly (p : Plan) (schedule : List Step) : Prop where
  due : ∀ done step rest, schedule = done ++ step :: rest → p.Due done step
  all : ∀ node < p.size, Computed schedule node

theorem computed_concat {done : List Step} {step : Step} {node : Nat} (h : Computed (done ++ [step]) node) :
    Computed done node ∨ ∃ nodes, step = .compute nodes ∧ node ∈ nodes := by
  obtain ⟨nodes, hmem, hn⟩ := h
  rcases List.mem_append.1 hmem with hmem | hmem
  · exact .inl ⟨nodes, hmem, hn⟩
  · exact .inr ⟨nodes, (List.mem_singleton.1 hmem).symm, hn⟩

/-! ## The levels in turn -/

section Levels

variable {release : Bool} {orders : List (List Nat)} {turns : List (List Nat × List Nat)}

theorem mem_turn_count {x : List Nat × List Nat} {node : Nat} :
    .count node ∈ p.turn release x ↔ release = true ∧ ∃ reader ∈ x.2, node ∈ p.graph.readBy reader := by
  cases release <;> simp [turn]

/-- Some levels count a node once for each of their nodes that reads it. -/
theorem count_turns (node : Nat) : (turns.flatMap (p.turn release)).count (.count node) =
    if release then (turns.flatMap Prod.snd).countP fun reader => (p.graph.readBy reader).contains node else 0 := by
  induction turns with
  | nil => cases release <;> rfl
  | cons x turns ih =>
    have hturn : (p.turn release x).count (.count node) =
        if release then x.2.countP fun reader => (p.graph.readBy reader).contains node else 0 := by
      cases release with
      | false => rfl
      | true =>
        have hne : Step.compute x.1 ≠ .count node := nofun
        rw [turn, List.count_cons_of_ne hne, if_pos rfl, if_pos rfl, ← count_readBy]
        exact List.count_map_of_injective _ _ (fun _ _ h => Step.count.inj h) _
    rw [List.flatMap_cons, List.count_append, ih, hturn]
    cases release with
    | false => rfl
    | true => rw [if_pos rfl, if_pos rfl, if_pos rfl, List.flatMap_cons, List.countP_append]

/-- Each of the turns is that of a level. -/
structure Turns (p : Plan) (turns : List (List Nat × List Nat)) : Prop where
  level : ∀ l x, turns[l]? = some x → x.1.Perm (p.nodesAt l) ∧ x.2 = p.nodesAt l
  all : ∀ node < p.size, ∃ x, turns[p.levelOf node]? = some x
  nodes : (turns.flatMap Prod.snd).Perm (List.range p.size)

theorem turns_of (hl : p.Layered) (ho : List.Forall₂ List.Perm orders p.byLevel) :
    p.Turns (orders.zip p.byLevel) := by
  obtain ⟨hlength, hperm⟩ := List.forall₂_iff_get.1 ho
  refine ⟨fun l x hx => ?_, fun node hn => ?_, ?_⟩
  · obtain ⟨horder, hlevel⟩ := List.getElem?_zip_eq_some.1 hx
    have hat := getElem?_byLevel hl hlevel
    obtain ⟨h1, horder⟩ := List.getElem?_eq_some_iff.1 horder
    obtain ⟨h2, hlevel⟩ := List.getElem?_eq_some_iff.1 hlevel
    have := hperm l h1 h2
    rw [List.get_eq_getElem, List.get_eq_getElem, horder, hlevel, hat] at this
    exact ⟨this, hat⟩
  · have hlt := levelOf_lt_depth hl.size hn
    have hb : p.levelOf node < p.byLevel.length := by rw [byLevel_eq hl.size]; simpa using hlt
    exact ⟨_, List.getElem?_eq_getElem (by rw [List.length_zip, hlength, Nat.min_self]; exact hb)⟩
  · rw [List.flatMap_def, List.map_snd_zip (Nat.le_of_eq hlength.symm)]
    exact byLevel_perm hl

/-- The computation comes first in its turn. -/
theorem turn_eq_compute {x : List Nat × List Nat} {nodes : List Nat} {before after : List Step}
    (h : p.turn release x = before ++ .compute nodes :: after) : before = [] ∧ nodes = x.1 := by
  cases before with
  | nil => exact ⟨rfl, (Step.compute.inj (List.cons.inj h).1).symm⟩
  | cons _ before =>
    exfalso
    have hmem : Step.compute nodes ∈ if release then (x.2.flatMap p.graph.readBy).map Step.count else [] :=
      (List.cons.inj h).2 ▸ List.mem_append_right before List.mem_cons_self
    split at hmem
    · obtain ⟨_, -, hstep⟩ := List.mem_map.1 hmem
      cases hstep
    · cases hmem

theorem turn_eq_count {x : List Nat × List Nat} {node : Nat} {before after : List Step}
    (h : p.turn release x = before ++ .count node :: after) : .compute x.1 ∈ before := by
  cases before with
  | nil => cases (List.cons.inj h).1
  | cons _ before => exact (List.cons.inj h).1 ▸ List.mem_cons_self

theorem computed_of_mem {x : List Nat × List Nat} {node : Nat} (hx : x ∈ turns) (hn : node ∈ x.1) :
    Computed (turns.flatMap (p.turn release)) node :=
  ⟨x.1, List.mem_flatMap.2 ⟨x, hx, List.mem_cons_self⟩, hn⟩

namespace Turns

variable {turns₁ turns₂ : List (List Nat × List Nat)} {x : List Nat × List Nat} {node : Nat}

theorem level_length (ht : p.Turns (turns₁ ++ x :: turns₂)) :
    x.1.Perm (p.nodesAt turns₁.length) ∧ x.2 = p.nodesAt turns₁.length :=
  ht.level _ x (by rw [List.getElem?_append_right (Nat.le_refl _), Nat.sub_self]; rfl)

theorem mem_iff (ht : p.Turns (turns₁ ++ x :: turns₂)) :
    node ∈ x.1 ↔ node < p.size ∧ p.levelOf node = turns₁.length := by
  rw [ht.level_length.1.mem_iff, mem_nodesAt]

theorem countP_eq (ht : p.Turns turns) (node : Nat) :
    (turns.flatMap Prod.snd).countP (fun reader => (p.graph.readBy reader).contains node) = p.readers node :=
  ht.nodes.countP_eq _

/-- A node of the levels before is computed by them. -/
theorem computed_of_lt (ht : p.Turns (turns₁ ++ turns₂)) (hn : node < p.size)
    (hlt : p.levelOf node < turns₁.length) : Computed (turns₁.flatMap (p.turn release)) node := by
  obtain ⟨y, hy⟩ := ht.all node hn
  have hat := (ht.level _ y hy).1
  rw [List.getElem?_append_left hlt] at hy
  exact computed_of_mem (List.mem_of_getElem? hy) (hat.mem_iff.2 (mem_nodesAt.2 ⟨hn, rfl⟩))

/-- A reader stands above what it reads, so that no level counts its own nodes or those above. -/
theorem count_not_mem (hl : p.Layered) (ht : p.Turns (turns₁ ++ turns₂)) (hlevel : turns₁.length ≤ p.levelOf node) :
    Step.count node ∉ turns₁.flatMap (p.turn release) := by
  intro hcount
  obtain ⟨y, hy, hcount⟩ := List.mem_flatMap.1 hcount
  obtain ⟨-, reader, hreader, hread⟩ := mem_turn_count.1 hcount
  obtain ⟨k, hk⟩ := List.getElem?_of_mem hy
  have hklt := (List.getElem?_eq_some_iff.1 hk).1
  have hkat := ht.level k y (by rw [List.getElem?_append_left hklt, hk])
  rw [hkat.2] at hreader
  obtain ⟨hrlt, hrlevel⟩ := mem_nodesAt.1 hreader
  have := hl.above reader hrlt node hread
  omega

/-- A level finds what its nodes read computed, with a reader left. -/
theorem due_compute (hl : p.Layered) (ht : p.Turns (turns₁ ++ x :: turns₂)) :
    p.Due (turns₁.flatMap (p.turn release)) (.compute x.1) := by
  intro node hn
  obtain ⟨hlt, hlevel⟩ := ht.mem_iff.1 hn
  refine ⟨hlt, count_not_mem hl ht (Nat.le_of_eq hlevel.symm), fun dep hdep => ?_⟩
  have hbelow := hl.above node hlt dep hdep
  obtain ⟨e, he, hedge⟩ := TermGraph.mem_readBy.1 hdep
  have hdlt : dep < p.size := Nat.lt_trans (hedge ▸ hl.lt node e he) hlt
  refine ⟨ht.computed_of_lt hdlt (hlevel ▸ hbelow), ?_⟩
  have hself : 0 < x.2.countP fun reader => (p.graph.readBy reader).contains dep :=
    List.countP_pos_iff.2 ⟨node, ht.level_length.2 ▸ mem_nodesAt.2 ⟨hlt, hlevel⟩, List.contains_iff_mem.2 hdep⟩
  have htotal := ht.countP_eq dep
  rw [List.flatMap_append, List.flatMap_cons, List.countP_append, List.countP_append] at htotal
  rw [count_turns]
  split <;> omega

/-- The last reader of a node is counted after all its readers are computed: no later turn counts it. -/
theorem due_count (ht : p.Turns (turns₁ ++ x :: turns₂)) {before after : List Step}
    (hx : p.turn release x = before ++ .count node :: after) :
    p.Due (turns₁.flatMap (p.turn release) ++ before) (.count node) := by
  obtain ⟨rfl, -⟩ : release = true ∧ _ := mem_turn_count.1 (hx ▸ List.mem_append_right _ List.mem_cons_self)
  have hcount : ((turns₁ ++ x :: turns₂).flatMap (p.turn true)).count (.count node) = p.readers node := by
    rw [count_turns, if_pos rfl, ht.countP_eq]
  rw [List.flatMap_append, List.flatMap_cons, hx, List.append_assoc, ← List.append_assoc, List.cons_append,
    List.count_append, List.count_cons_self] at hcount
  refine ⟨by omega, fun hlast reader hr hread => ?_⟩
  have hrest : Step.count node ∉ after ++ turns₂.flatMap (p.turn true) := by
    rw [← List.count_eq_zero]
    omega
  obtain ⟨y, hy⟩ := ht.all reader hr
  have hyat := ht.level _ y hy
  have hreader : reader ∈ p.nodesAt (p.levelOf reader) := mem_nodesAt.2 ⟨hr, rfl⟩
  refine ⟨y.1, ?_, hyat.1.mem_iff.2 hreader⟩
  rcases List.mem_append.1 (List.mem_of_getElem? hy) with hy | hy
  · exact List.mem_append_left _ (List.mem_flatMap.2 ⟨y, hy, List.mem_cons_self⟩)
  · rcases List.mem_cons.1 hy with rfl | hy
    · exact List.mem_append_right _ (turn_eq_count hx)
    · exact absurd (List.mem_append_right _ (List.mem_flatMap.2 ⟨y, hy,
        mem_turn_count.2 ⟨rfl, reader, hyat.2 ▸ hreader, hread⟩⟩)) hrest

end Turns

/-- The levels in turn are an orderly schedule. -/
theorem orderly_turns (hl : p.Layered) (ht : p.Turns turns) : p.Orderly (turns.flatMap (p.turn release)) := by
  refine ⟨fun done step rest h => ?_, fun node hn => ?_⟩
  · obtain ⟨turns₁, x, turns₂, done', rest', rfl, hx, rfl, rfl⟩ := split_flatMap h
    cases step with
    | compute nodes =>
      obtain ⟨rfl, rfl⟩ := turn_eq_compute hx
      rw [List.append_nil]
      exact ht.due_compute hl
    | count node => exact ht.due_count hx
  · obtain ⟨y, hy⟩ := ht.all node hn
    exact computed_of_mem (List.mem_of_getElem? hy) ((ht.level _ y hy).1.mem_iff.2 (mem_nodesAt.2 ⟨hn, rfl⟩))

theorem orderly_steps (hl : p.Layered) (ho : List.Forall₂ List.Perm orders p.byLevel) :
    p.Orderly (p.steps release orders) := orderly_turns hl (turns_of hl ho)

end Levels

/-! ## Values -/

section Values

variable {c : Chunk} {given ws ws' : Workspace} {node : Nat} {t : Term}

/-- What a node denotes is given, or computed from what the nodes that it reads denote. -/
inductive Denotes (p : Plan) (c : Chunk) (given : Workspace) : Nat → History → Prop
  | given {node : Nat} {h : History} (hg : given.get? node = some h) : p.Denotes c given node h
  | computed {node : Nat} {t : Term} {h : History} {ws : Workspace} (hg : given.get? node = none)
      (ht : p.graph.terms[node]? = some t) (hall : ∀ dep ∈ p.graph.readBy node, (ws.get? dep).isSome = true)
      (hdeps : ∀ dep ∈ p.graph.readBy node, ∀ h, ws.get? dep = some h → p.Denotes c given dep h)
      (hh : p.computeNode c ws node t = .ok h) : p.Denotes c given node h

/-- A node is computed from what it reads alone. -/
theorem computeNode_congr (h : ∀ dep ∈ p.graph.readBy node, ws.get? dep = ws'.get? dep) :
    p.computeNode c ws node t = p.computeNode c ws' node t := by
  have hfollow (init : Grid Bool × List Input) (count : Nat) :
      (p.graph.edgesOf node).foldlM (p.follow ws node t count) init =
        (p.graph.edgesOf node).foldlM (p.follow ws' node t count) init :=
    Checked.foldlM_congr (fun e he found => by
      rw [follow, follow, Workspace.expect, Workspace.expect, h e.node (TermGraph.mem_readBy.2 ⟨e, he, rfl⟩)]) init
  simp only [computeNode, hfollow]

theorem Denotes.unique {h h' : History} (hd : p.Denotes c given node h) (hd' : p.Denotes c given node h') : h = h' := by
  induction hd generalizing h' with
  | given hg =>
    cases hd' with
    | given hg' => exact Option.some.inj (hg.symm.trans hg')
    | computed hg' => exact nomatch hg.symm.trans hg'
  | @computed node t h ws hg ht hall hdeps hh ih =>
    cases hd' with
    | given hg' => exact nomatch hg.symm.trans hg'
    | @computed _ t' _ ws' _ ht' hall' hdeps' hh' =>
      obtain rfl := Option.some.inj (ht.symm.trans ht')
      have hsame : ∀ dep ∈ p.graph.readBy node, ws.get? dep = ws'.get? dep := fun dep hdep => by
        obtain ⟨h₁, h₁eq⟩ := Option.isSome_iff_exists.1 (hall dep hdep)
        obtain ⟨h₂, h₂eq⟩ := Option.isSome_iff_exists.1 (hall' dep hdep)
        rw [h₁eq, h₂eq, ih dep hdep h₁ h₁eq (hdeps' dep hdep h₂ h₂eq)]
      rw [computeNode_congr hsame, hh'] at hh
      exact (Except.ok.inj hh).symm

end Values

/-! ## Nothing is missing -/

section Missing

variable {c : Chunk} {ws : Workspace}

theorem ends_expect {reader : String} {node : Nat} (h : (ws.get? node).isSome = true) :
    Checked.Ends (fun _ => True) RunError.AtWork (ws.expect p reader node) := by
  obtain ⟨history, hh⟩ := Option.isSome_iff_exists.1 h
  rw [Workspace.expect, hh]
  trivial

theorem ends_rows (h : History) (start count : Nat) :
    Checked.Ends (fun _ => True) RunError.AtWork (rows h start count) :=
  (Checked.ends_true _).mapError fun _ _ => trivial

theorem ends_truths (b : Block) : Checked.Ends (fun _ => True) RunError.AtWork (truths b) :=
  (Checked.ends_true _).mapError fun _ _ => trivial

/-- A node that finds what it reads misses nothing. -/
theorem ends_computeNode {node : Nat} {t : Term} (h : ∀ dep ∈ p.graph.readBy node, (ws.get? dep).isSome = true) :
    Checked.Ends (fun _ => True) RunError.AtWork (p.computeNode c ws node t) := by
  refine Checked.Ends.bind (Checked.ends_foldlM (B := fun _ => True) (fun e he found _ => ?_) trivial) fun found _ =>
    ((Checked.ends_true _).mapError fun _ _ => trivial).bind fun _ _ =>
      (Checked.ends_true _).mapError fun _ _ => trivial
  refine (ends_expect (h e.node (TermGraph.mem_readBy.2 ⟨e, he, rfl⟩))).bind fun history _ => ?_
  split
  · exact (ends_rows ..).bind fun _ _ => (ends_truths _).bind fun _ _ => trivial
  · split
    · exact (ends_rows ..).bind fun _ _ => trivial
    · exact ((Checked.ends_true _).mapError fun _ _ => trivial).bind fun _ _ => trivial

/-- Nor does a level whose nodes find what they read. -/
theorem ends_computeLevel {level : List Nat} (hn : ∀ node ∈ level, node < p.size)
    (h : ∀ node ∈ level, ∀ dep ∈ p.graph.readBy node, (ws.get? dep).isSome = true) :
    Checked.Ends (fun _ => True) RunError.AtWork (p.computeLevel c ws level) := by
  rw [computeLevel_eq hn]
  refine (Checked.ends_mapM (B := fun _ => True) fun node hnode => ?_).bind fun _ _ => trivial
  obtain ⟨hnode, -⟩ := List.mem_filter.1 hnode
  have ht : p.graph.terms[node]? = some _ := Array.getElem?_eq_getElem (hn node hnode)
  simp only [computeEntry, ht]
  exact (ends_computeNode (h node hnode)).bind fun _ _ => trivial

/-- Nor does a result whose roots are there. -/
theorem ends_assemble (h : ∀ node, p.graph.isRoot node = true → (ws.get? node).isSome = true) :
    Checked.Ends (fun _ => True) RunError.AtWork (p.assemble c ws) := by
  have htrimmed {node : Nat} (hr : p.graph.isRoot node = true) :
      Checked.Ends (fun _ => True) RunError.AtWork (p.trimmed c ws node) :=
    (ends_expect (h node hr)).bind fun _ _ => ends_rows ..
  have hkeep : Checked.Ends (fun _ => True) RunError.AtWork (p.keepOf c ws) := by
    unfold keepOf
    cases hs : p.graph.screen with
    | none => exact trivial
    | some screen => exact (htrimmed (isRoot_screen hs)).bind fun _ _ => (ends_truths _).bind fun _ _ => trivial
  have hcolumns (cells : List (Nat × Nat)) : Checked.Ends (fun _ => True) RunError.AtWork (p.gatherAll c ws cells) := by
    unfold gatherAll
    refine (Checked.ends_mapM (B := fun _ => True) fun output ho => ?_).bind fun _ _ =>
      (Checked.ends_true _).mapError fun _ _ => trivial
    exact (htrimmed (isRoot_output ho)).bind fun _ _ => trivial
  rw [assemble_eq]
  exact hkeep.bind fun keep _ => hcolumns (cellsOf keep)

end Missing

/-! ## Running a schedule -/

section Running

variable {c : Chunk} {given : Workspace} {done rest schedule : List Step} {step : Step}
  {state state' : Workspace × Array Nat}

/-- A schedule starts with what is given and with all readers. -/
def start (p : Plan) (given : Workspace) : Workspace × Array Nat :=
  (given, ((List.range p.size).map p.readers).toArray)

/-- What stands after some steps of an orderly schedule. -/
structure Standing (p : Plan) (c : Chunk) (given : Workspace) (done : List Step) (state : Workspace × Array Nat) :
    Prop where
  size : state.1.size = p.size
  left : ∀ k, state.2.getD k 0 = p.readers k - done.count (.count k)
  right : ∀ k h, state.1.get? k = some h → p.Denotes c given k h
  /-- What was known is there until its last reader is counted. -/
  kept : ∀ k, (given.get? k).isSome = true ∨ Computed done k →
    p.graph.isRoot k = true ∨ .count k ∉ done ∨ done.count (.count k) < p.readers k → (state.1.get? k).isSome = true

theorem standing_start (hl : p.Layered) (hs : given.size = p.size) : p.Standing c given [] (p.start given) where
  size := hs
  left k := by rw [start, getD_readers hl.lt, List.count_nil, Nat.sub_zero]
  right _ _ h := .given h
  kept _ hk _ := hk.resolve_right fun ⟨_, hmem, _⟩ => nomatch hmem

/-- A node that is due finds what it reads. -/
theorem Standing.reads (hst : p.Standing c given done state) {nodes : List Nat} (hdue : p.Due done (.compute nodes))
    {node : Nat} (hn : node ∈ nodes) {dep : Nat} (hdep : dep ∈ p.graph.readBy node) :
    (state.1.get? dep).isSome = true := by
  obtain ⟨hcomputed, hlt⟩ := (hdue node hn).2.2 dep hdep
  exact hst.kept dep (.inr hcomputed) (.inr (.inr hlt))

/-- A node that is due and not there was not given. -/
theorem Standing.given_eq_none (hst : p.Standing c given done state) {nodes : List Nat}
    (hdue : p.Due done (.compute nodes)) {node : Nat} (hn : node ∈ nodes) (h : state.1.get? node = none) :
    given.get? node = none := by
  rw [← Option.not_isSome_iff_eq_none]
  intro hg
  have := hst.kept node (.inl hg) (.inr (.inl (hdue node hn).2.1))
  rw [h] at this
  cases this

/-- What a node that is due is computed to is what it denotes. -/
theorem Standing.denotes_iff (hst : p.Standing c given done state) {nodes : List Nat}
    (hdue : p.Due done (.compute nodes)) {node : Nat} (hn : node ∈ nodes) (hnone : state.1.get? node = none) {t : Term}
    (ht : p.graph.terms[node]? = some t) {h : History} :
    p.Denotes c given node h ↔ p.computeNode c state.1 node t = .ok h := by
  have hg := hst.given_eq_none hdue hn hnone
  constructor
  · intro hd
    cases hd with
    | given hg' => exact nomatch hg.symm.trans hg'
    | @computed _ t' _ ws _ ht' hall hdeps hh =>
      obtain rfl := Option.some.inj (ht.symm.trans ht')
      rw [← hh]
      refine computeNode_congr fun dep hdep => ?_
      obtain ⟨h₁, h₁eq⟩ := Option.isSome_iff_exists.1 (hst.reads hdue hn hdep)
      obtain ⟨h₂, h₂eq⟩ := Option.isSome_iff_exists.1 (hall dep hdep)
      rw [h₁eq, h₂eq, (hst.right dep h₁ h₁eq).unique (hdeps dep hdep h₂ h₂eq)]
  · exact fun hh => .computed hg ht (fun dep => hst.reads hdue hn) (fun dep _ h => hst.right dep h) hh

/-- A computation that is due succeeds exactly if its nodes denote something. -/
theorem Standing.compute (hst : p.Standing c given done state) {nodes : List Nat} (hdue : p.Due done (.compute nodes)) :
    ((∀ node ∈ nodes, ∃ h, p.Denotes c given node h) ∧ ∃ state', p.exec c state (.compute nodes) = .ok state' ∧
        p.Standing c given (done ++ [.compute nodes]) state') ∨
      ((∃ node ∈ nodes, ∀ h, ¬p.Denotes c given node h) ∧
        ∃ err, p.exec c state (.compute nodes) = .error err ∧ err.AtWork) := by
  have hlt : ∀ node ∈ nodes, node < p.size := fun node hn => (hdue node hn).1
  cases hlevel : p.computeLevel c state.1 nodes with
  | ok ws =>
    obtain ⟨hsize, hget, hat, hkept⟩ := computeLevel_ok hlt hst.size hlevel
    have hright (k : Nat) (h : History) (hk : ws.get? k = some h) : p.Denotes c given k h := by
      rcases hget k h hk with hold | ⟨hn, hnone, t, ht, hh⟩
      · exact hst.right k h hold
      · exact (hst.denotes_iff hdue hn hnone ht).2 hh
    refine .inl ⟨fun node hn => ?_, (ws, state.2), by rw [exec, hlevel]; rfl, hsize.trans hst.size, fun k => ?_,
      hright, fun k hk hr => ?_⟩
    · obtain ⟨h, hh⟩ := Option.isSome_iff_exists.1 (hat node hn)
      exact ⟨h, hright node h hh⟩
    · rw [hst.left, List.count_append, List.count_cons_of_ne (show Step.compute nodes ≠ .count k from nofun),
        List.count_nil, Nat.add_zero]
    · by_cases hn : k ∈ nodes
      · exact hat k hn
      · rw [hkept k (.inl hn)]
        refine hst.kept k (hk.imp_right fun hk => ?_) (hr.imp_right (Or.imp ?_ ?_))
        · rcases computed_concat hk with hk | ⟨nodes', heq, hk⟩
          · exact hk
          · exact absurd (Step.compute.inj heq ▸ hk) hn
        · exact fun h hmem => h (List.mem_append_left _ hmem)
        · intro h
          rw [List.count_append] at h
          omega
  | error err =>
    have hnot : ¬∃ ws, p.computeLevel c state.1 nodes = .ok ws := by
      rw [hlevel]
      exact fun ⟨_, h⟩ => nomatch h
    rw [exists_computeLevel hlt] at hnot
    simp only [not_forall] at hnot
    obtain ⟨node, hn, hnone, t, ht, hno⟩ := hnot
    have hwork := ends_computeLevel (c := c) hlt fun node hn dep => hst.reads hdue hn
    rw [hlevel] at hwork
    exact .inr ⟨⟨node, hn, fun h hd => hno ⟨h, (hst.denotes_iff hdue hn hnone ht).1 hd⟩⟩, err,
      by rw [exec, hlevel]; rfl, hwork⟩

/-- Counting a reader that is due drops nothing that may still be read. -/
theorem Standing.count (hst : p.Standing c given done state) (node : Nat) :
    p.Standing c given (done ++ [.count node]) (p.releaseNode state node) := by
  have hcount (k : Nat) : (done ++ [Step.count node]).count (.count k) =
      done.count (.count k) + if node = k then 1 else 0 := by
    rw [List.count_append, List.count_singleton]
    simp only [beq_iff_eq, Step.count.injEq]
  have hleft (k : Nat) : (p.releaseNode state node).2.getD k 0 =
      p.readers k - (done ++ [Step.count node]).count (.count k) := by
    rw [getD_releaseNode, hst.left, hcount, Nat.sub_sub]
  refine ⟨(size_releaseNode state node).trans hst.size, hleft, fun k h hk => hst.right k h (get?_of_releaseNode hk),
    fun k hk hr => ?_⟩
  have hold : (state.1.get? k).isSome = true := by
    refine hst.kept k (hk.imp_right fun hk => ?_) (hr.imp_right (Or.imp ?_ ?_))
    · exact (computed_concat hk).resolve_right fun ⟨_, heq, _⟩ => nomatch heq
    · exact fun h hmem => h (List.mem_append_left _ hmem)
    · intro h
      rw [hcount] at h
      omega
  rw [← hold]
  refine congrArg Option.isSome (get?_releaseNode ?_)
  by_cases hkn : k = node
  · refine .inr (hr.imp_right fun hr => ?_)
    have hlt := hr.resolve_left fun h => h (hkn ▸ List.mem_append_right _ (List.mem_singleton.2 rfl))
    rw [hleft]
    omega
  · exact .inl hkn

/-- A step that is due leads on, unless one of its nodes denotes nothing. -/
theorem Standing.exec (hst : p.Standing c given done state) (hdue : p.Due done step) :
    ((∀ node, Computed [step] node → ∃ h, p.Denotes c given node h) ∧ ∃ state', p.exec c state step = .ok state' ∧
        p.Standing c given (done ++ [step]) state') ∨
      ((∃ node, Computed [step] node ∧ ∀ h, ¬p.Denotes c given node h) ∧
        ∃ err, p.exec c state step = .error err ∧ err.AtWork) := by
  cases step with
  | count node =>
    refine .inl ⟨fun k ⟨nodes, hmem, _⟩ => ?_, _, rfl, hst.count node⟩
    cases List.mem_singleton.1 hmem
  | compute nodes =>
    refine (hst.compute hdue).imp (And.imp_left fun h node ⟨nodes', hmem, hn⟩ => ?_)
      (And.imp_left fun ⟨node, hn, h⟩ => ⟨node, ⟨nodes, List.mem_singleton.2 rfl, hn⟩, h⟩)
    obtain rfl := Step.compute.inj (List.mem_singleton.1 hmem)
    exact h node hn

/-- Steps that are due lead on, unless one of their nodes denotes nothing. -/
theorem Standing.foldlM_exec (hst : p.Standing c given done state)
    (hdue : ∀ done' step rest', rest = done' ++ step :: rest' → p.Due (done ++ done') step) :
    ((∀ node, Computed rest node → ∃ h, p.Denotes c given node h) ∧
        ∃ state', rest.foldlM (p.exec c) state = .ok state' ∧ p.Standing c given (done ++ rest) state') ∨
      ((∃ node, Computed rest node ∧ ∀ h, ¬p.Denotes c given node h) ∧
        ∃ err, rest.foldlM (p.exec c) state = .error err ∧ err.AtWork) := by
  induction rest generalizing done state with
  | nil => exact .inl ⟨fun _ ⟨_, hmem, _⟩ => (nomatch hmem), state, rfl, by rwa [List.append_nil]⟩
  | cons step rest ih =>
    have hstep := hdue [] step rest rfl
    rw [List.append_nil] at hstep
    have hcons {node : Nat} : Computed (step :: rest) node ↔ Computed [step] node ∨ Computed rest node := by
      simp only [Computed, List.mem_cons, List.not_mem_nil, or_false, or_and_right, exists_or]
    rw [List.foldlM_cons]
    rcases hst.exec hstep with ⟨hdenote, state₁, hok, hst₁⟩ | ⟨⟨node, hn, hno⟩, err, herr, hwork⟩
    · rw [hok]
      rcases ih hst₁ fun done' step' rest' h => by
          rw [List.append_assoc]
          exact hdue (step :: done') step' rest' (congrArg (step :: ·) h) with
        ⟨hdenote', state₂, hok', hst₂⟩ | ⟨⟨node, hn, hno⟩, hfailed⟩
      · refine .inl ⟨fun node hn => (hcons.1 hn).elim (hdenote node) (hdenote' node), state₂, hok', ?_⟩
        rwa [List.append_assoc] at hst₂
      · exact .inr ⟨⟨node, hcons.2 (.inr hn), hno⟩, hfailed⟩
    · rw [herr]
      exact .inr ⟨⟨node, hcons.2 (.inl hn), hno⟩, err, rfl, hwork⟩

/-- An orderly schedule leads to its end, unless a node denotes nothing. -/
theorem Orderly.foldlM_exec (ho : p.Orderly schedule) (hl : p.Layered) (hs : given.size = p.size) :
    ((∀ node < p.size, ∃ h, p.Denotes c given node h) ∧
        ∃ state, schedule.foldlM (p.exec c) (p.start given) = .ok state ∧ p.Standing c given schedule state) ∨
      ((∃ node < p.size, ∀ h, ¬p.Denotes c given node h) ∧
        ∃ err, schedule.foldlM (p.exec c) (p.start given) = .error err ∧ err.AtWork) := by
  rcases (standing_start (c := c) hl hs).foldlM_exec ho.due with ⟨hall, hok⟩ | ⟨⟨node, ⟨nodes, hmem, hn⟩, hno⟩, hfailed⟩
  · exact .inl ⟨fun node hn => hall node (ho.all node hn), hok⟩
  · obtain ⟨done, rest, rfl⟩ := List.append_of_mem hmem
    exact .inr ⟨⟨node, (ho.due done _ rest rfl node hn).1, hno⟩, hfailed⟩

/-- The result of a schedule. -/
def complete (p : Plan) (c : Chunk) (schedule : List Step) (given : Workspace) : Except RunError Result := do
  let state ← schedule.foldlM (p.exec c) (p.start given)
  p.assemble c state.1

theorem trimmed_congr {ws ws' : Workspace} {node : Nat} (h : ws.get? node = ws'.get? node) :
    p.trimmed c ws node = p.trimmed c ws' node := by
  rw [trimmed, trimmed, Workspace.expect, Workspace.expect, h]

/-- A result is put together from the roots alone. -/
theorem assemble_congr {ws ws' : Workspace} (h : ∀ node, p.graph.isRoot node = true → ws.get? node = ws'.get? node) :
    p.assemble c ws = p.assemble c ws' := by
  have hcolumns (cells : List (Nat × Nat)) :
      p.graph.outputs.mapM (fun (x : String × Nat) => do
          return (x.1, Values.gather (← p.trimmed c ws x.2) cells)) =
        p.graph.outputs.mapM (fun (x : String × Nat) => do
          return (x.1, Values.gather (← p.trimmed c ws' x.2) cells)) :=
    Checked.mapM_congr fun x hx => by rw [trimmed_congr (h x.2 (isRoot_output hx))]
  unfold assemble
  cases hs : p.graph.screen with
  | none => simp only [hcolumns]
  | some screen => simp only [hcolumns, trimmed_congr (h screen (isRoot_screen hs))]

/-- Orderly schedules come to one result. -/
theorem complete_iff {schedule' : List Step} (ho : p.Orderly schedule) (ho' : p.Orderly schedule') (hl : p.Layered)
    (hs : given.size = p.size) (r : Result) :
    p.complete c schedule given = .ok r ↔ p.complete c schedule' given = .ok r := by
  rcases ho.foldlM_exec (c := c) hl hs with ⟨hall, state, hok, hst⟩ | ⟨⟨node, hn, hno⟩, err, herr, -⟩
  · rcases ho'.foldlM_exec (c := c) hl hs with ⟨-, state', hok', hst'⟩ | ⟨⟨node, hn, hno⟩, -⟩
    · rw [complete, complete, hok, hok']
      show p.assemble c state.1 = _ ↔ p.assemble c state'.1 = _
      rw [assemble_congr fun node hr => ?_]
      obtain ⟨h, hh⟩ := Option.isSome_iff_exists.1 (hst.kept node (.inr (ho.all node (hl.roots node hr))) (.inl hr))
      obtain ⟨h', hh'⟩ := Option.isSome_iff_exists.1 (hst'.kept node (.inr (ho'.all node (hl.roots node hr))) (.inl hr))
      rw [hh, hh', (hst.right node h hh).unique (hst'.right node h' hh')]
    · obtain ⟨h, hh⟩ := hall node hn
      exact absurd hh (hno h)
  · rcases ho'.foldlM_exec (c := c) hl hs with ⟨hall, -⟩ | ⟨-, err', herr', -⟩
    · obtain ⟨h, hh⟩ := hall node hn
      exact absurd hh (hno h)
    · rw [complete, complete, herr, herr']
      exact ⟨nofun, nofun⟩

/-- An orderly schedule fails on what it is given, if it fails. -/
theorem atWork_complete (ho : p.Orderly schedule) (hl : p.Layered) (hs : given.size = p.size) :
    Checked.Ends (fun _ => True) RunError.AtWork (p.complete c schedule given) := by
  rcases ho.foldlM_exec (c := c) hl hs with ⟨-, state, hok, hst⟩ | ⟨-, err, herr, hwork⟩
  · rw [complete, hok]
    exact ends_assemble fun node hr => hst.kept node (.inr (ho.all node (hl.roots node hr))) (.inl hr)
  · rw [complete, herr]
    exact hwork

/-- An orderly schedule misses nothing. -/
theorem ends_complete (ho : p.Orderly schedule) (hl : p.Layered) (hs : given.size = p.size) :
    Checked.Ends (fun _ => True) (¬·.IsMissing) (p.complete c schedule given) :=
  (atWork_complete ho hl hs).weaken fun _ => RunError.AtWork.not_missing

/-! ## What a step counts and drops -/

/-- A counter that a step counts down is not used up, and what it drops is neither an output nor
the screen, and all that reads it is computed. -/
structure Safe (p : Plan) (c : Chunk) (done : List Step) (step : Step) (state : Workspace × Array Nat) : Prop where
  counts : ∀ node, step = .count node → 0 < state.2.getD node 0
  drops : ∀ state', p.exec c state step = .ok state' → ∀ node, (state.1.get? node).isSome = true →
    state'.1.get? node = none → p.graph.isRoot node = false ∧
      ∀ reader < p.size, node ∈ p.graph.readBy reader → Computed done reader

theorem Standing.safe (hst : p.Standing c given done state) (hdue : p.Due done step) : p.Safe c done step state := by
  refine ⟨?_, fun state' h node hsome hnone => ?_⟩
  · rintro node rfl
    have := hdue.1
    rw [hst.left]
    omega
  · cases step with
    | compute nodes =>
      obtain ⟨ws, hlevel, h⟩ := Checked.bind_eq_ok.1 h
      obtain rfl := Except.ok.inj h
      obtain ⟨-, -, -, hkept⟩ := computeLevel_ok (fun node hn => (hdue node hn).1) hst.size hlevel
      rw [← hkept node (.inr hsome)] at hsome
      exact absurd (hnone ▸ hsome : (none : Option History).isSome = true) nofun
    | count counted =>
      obtain rfl := Except.ok.inj h
      -- the node that is dropped is the one that is counted, with no reader left
      have hspent : ¬(node ≠ counted ∨ p.graph.isRoot node = true ∨
          0 < (p.releaseNode state counted).2.getD node 0) := fun hr => by
        rw [← get?_releaseNode hr, hnone] at hsome
        cases hsome
      rw [not_or, not_or, not_not, Bool.not_eq_true] at hspent
      obtain ⟨rfl, hroot, hzero⟩ := hspent
      rw [getD_releaseNode, if_pos rfl, hst.left] at hzero
      exact ⟨hroot, hdue.2 (by have := hdue.1; omega)⟩

/-- Before every step of an orderly schedule stands what is left by the steps before it. -/
theorem Orderly.standing (ho : p.Orderly schedule) (hl : p.Layered) (hs : given.size = p.size)
    (h : schedule = done ++ step :: rest) (hstate : done.foldlM (p.exec c) (p.start given) = .ok state) :
    p.Standing c given done state := by
  have hdue : ∀ done' step' rest', done = done' ++ step' :: rest' → p.Due done' step' := fun done' step' rest' hd =>
    ho.due done' step' (rest' ++ step :: rest) (by rw [h, hd, List.append_assoc]; rfl)
  rcases (standing_start (c := c) hl hs).foldlM_exec hdue with ⟨-, state', hok, hst⟩ | ⟨-, err, herr, -⟩
  · exact Except.ok.inj (hstate.symm.trans hok) ▸ hst
  · rw [hstate] at herr
    cases herr

/-- Every step of an orderly schedule is safe. -/
theorem Orderly.safe (ho : p.Orderly schedule) (hl : p.Layered) (hs : given.size = p.size)
    (h : schedule = done ++ step :: rest) (hstate : done.foldlM (p.exec c) (p.start given) = .ok state) :
    p.Safe c done step state :=
  (ho.standing hl hs h hstate).safe (ho.due done step rest h)

end Running

end Plan
end AsOf
