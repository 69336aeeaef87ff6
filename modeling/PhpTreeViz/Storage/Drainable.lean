import PhpTreeViz.Storage.Delivery
import PhpTreeViz.Storage.Rooted

/-!
# Draining any tree

The drain does not need to know how its database came about. `Drainable` is what it relies on, and
`DrainInv` is what any run of `resolve` steps has made of such a database: it has added the folds
of its log to the tree that was there, and taken the folded calls from `pending_calls`.
-/

namespace PhpTreeViz

open Core

/-! ### The rows under many folds -/

/-- A row after the folds in `log`. -/
def NodeRow.touchAll (r : NodeRow) (log : List Folded) : NodeRow :=
  log.foldl (fun r f => r.touch f) r

/-- The numbers that the folds in `log` added to the row of node `n`, as they are stored. -/
def Column.added (col : Column) (log : List Folded) (n : ℕ) : List Int64 :=
  (log.filter (col.slot · = n)).map fun f => col.value f.call

lemma Column.map_added (col : Column) (log : List Folded) (n : ℕ) :
    (col.added log n).map Int64.toInt = col.values log n := by
  rw [added, values, List.map_map]
  rfl

section touchAll

variable (r : NodeRow) (log : List Folded)

lemma NodeRow.touchAll_concat (f : Folded) :
    r.touchAll (log ++ [f]) = (r.touchAll log).touch f := by
  rw [touchAll, List.foldl_append]
  rfl

@[simp] lemma NodeRow.nodeId_touchAll : (r.touchAll log).nodeId = r.nodeId := by
  induction log generalizing r with
  | nil => rfl
  | cons f log ih => exact (ih (r.touch f)).trans (r.nodeId_touch f)

lemma NodeRow.callCount_touchAll :
    (r.touchAll log).callCount = r.callCount + log.countP fun f => f.node = r.nodeId := by
  induction log generalizing r with
  | nil => rfl
  | cons f log ih =>
    have := ih (r.touch f)
    rw [NodeRow.callCount_touch, NodeRow.nodeId_touch] at this
    simp only [List.countP_cons, decide_eq_true_eq]
    rw [Nat.add_comm (List.countP _ _), ← Nat.add_assoc]
    exact this

lemma NodeRow.abnormalExitCount_touchAll : (r.touchAll log).abnormalExitCount =
    r.abnormalExitCount + log.countP fun f => f.node = r.nodeId ∧ f.call.abnormalExit := by
  induction log generalizing r with
  | nil => rfl
  | cons f log ih =>
    have := ih (r.touch f)
    rw [NodeRow.abnormalExitCount_touch, NodeRow.nodeId_touch] at this
    simp only [List.countP_cons, decide_eq_true_eq]
    rw [Nat.add_comm (List.countP _ _), ← Nat.add_assoc]
    exact this

lemma Column.get_touchAll (col : Column) :
    col.get (r.touchAll log) = (col.get r).addAll (col.added log r.nodeId) := by
  induction log generalizing r with
  | nil => rfl
  | cons f log ih =>
    have := ih (r.touch f)
    rw [col.get_touch, NodeRow.nodeId_touch] at this
    refine Eq.trans this ?_
    by_cases hs : col.slot f = r.nodeId
    · simp [added, hs, NumCell.addAll]
    · simp [added, hs]

/-- Folds elsewhere leave the row alone. -/
lemma NodeRow.touchAll_of_ne
    (h : ∀ f ∈ log, f.node ≠ r.nodeId ∧ f.parentNode ≠ r.nodeId) : r.touchAll log = r := by
  induction log with
  | nil => rfl
  | cons f log ih =>
    simp only [List.mem_cons, forall_eq_or_imp] at h
    have hf : r.touch f = r := by
      simp only [touch, if_neg h.1.1.symm, if_neg h.1.2.symm]
    rw [touchAll, List.foldl_cons, hf]
    exact ih h.2

end touchAll

/-! ### The database before the drain -/

/-- What the drain relies on. -/
structure Drainable (db : TraceDb) : Prop where
  rooted : Rooted db
  nodes : ∀ m ∈ db.callToNode.rows, db.nodes.HasKey m.nodeId
  disjoint : ∀ p ∈ db.pendingCalls.rows, ¬ db.callToNode.HasKey p.callId
  mapped_ne_zero : ∀ m ∈ db.callToNode.rows, m.callId ≠ 0
  pending_ne_zero : ∀ p ∈ db.pendingCalls.rows, p.callId ≠ 0

/-- The row of a node, or an empty one if there is none. -/
def TraceDb.rowOf (db : TraceDb) (n : ℕ) : NodeRow :=
  (db.nodes.find? n).getD (.blank n syntheticRootNodeId default)

/-- `r` is a row of `db`, or an empty one for a node that is not there yet. -/
def TraceDb.Origin (db : TraceDb) (r : NodeRow) : Prop :=
  r ∈ db.nodes.rows ∨ ¬ db.nodes.HasKey r.nodeId ∧ ∃ n p c, r = .blank n p c

lemma TraceDb.rowOf_of_mem {db : TraceDb} {r : NodeRow} (h : r ∈ db.nodes.rows) :
    db.rowOf r.nodeId = r := by
  rw [rowOf, Table.find?_of_mem h, Option.getD_some]

lemma TraceDb.rowOf_of_not_hasKey {db : TraceDb} {n : ℕ} (h : ¬ db.nodes.HasKey n) :
    db.rowOf n = .blank n syntheticRootNodeId default := by
  rw [rowOf, Table.find?_eq_none_iff.mpr h, Option.getD_none]

namespace TraceDb.Origin

variable {db : TraceDb} {r : NodeRow}

lemma callCount (h : db.Origin r) : r.callCount = (db.rowOf r.nodeId).callCount := by
  rcases h with h | ⟨hnone, n, p, c, rfl⟩
  · rw [rowOf_of_mem h]
  · rw [rowOf_of_not_hasKey hnone]
    rfl

lemma abnormalExitCount (h : db.Origin r) :
    r.abnormalExitCount = (db.rowOf r.nodeId).abnormalExitCount := by
  rcases h with h | ⟨hnone, n, p, c, rfl⟩
  · rw [rowOf_of_mem h]
  · rw [rowOf_of_not_hasKey hnone]
    rfl

lemma column (h : db.Origin r) (col : Column) : col.get r = col.get (db.rowOf r.nodeId) := by
  rcases h with h | ⟨hnone, n, p, c, rfl⟩
  · rw [rowOf_of_mem h]
  · rw [rowOf_of_not_hasKey hnone, col.get_blank, col.get_blank]

end TraceDb.Origin

/-! ### The invariant -/

/-- The pending calls of `b` whose function is known, and the calls that `b` has mapped. -/
abbrev ResolvesFrom (b : TraceDb) : UInt32 → Prop :=
  Resolves PendingCall.callId PendingCall.need
    {p | p ∈ b.pendingCalls.rows ∧ b.dict.HasKey p.fnId} {id | b.callToNode.HasKey id}

/-- `s` is `b` with the folds of the log of `s`. -/
structure DrainInv (b : TraceDb) (s : Traced) : Prop where
  dict : s.db.dict = b.dict
  rooted : Rooted s.db
  kept : NodesKept b s.db
  rows : ∀ r ∈ s.db.nodes.rows, ∃ r₀, b.Origin r₀ ∧ r = r₀.touchAll s.log
  mapped : s.db.callToNode.rows = b.callToNode.rows ++ s.log.map Folded.row
  taken : ∀ f ∈ s.log, PendingCall.ofCall f.call ∈ b.pendingCalls.rows
  pending : ∀ p, p ∈ s.db.pendingCalls.rows ↔
    p ∈ b.pendingCalls.rows ∧ ∀ f ∈ s.log, f.call.callId ≠ p.callId
  parentAt : ∀ f ∈ s.log, ParentAt s.db f.call.parent f.parentNode
  placed : ∀ f ∈ s.log, ∃ r ∈ s.db.nodes.rows, r.nodeId = f.node ∧
    r.parentNodeId = some f.parentNode ∧ r.fnId = f.call.fnId ∧ r.depth = f.call.depth
  used : ∀ r ∈ s.db.nodes.rows, b.nodes.HasKey r.nodeId ∨ ∃ f ∈ s.log, f.node = r.nodeId
  resolves : ∀ f ∈ s.log, ResolvesFrom b f.call.callId

namespace DrainInv

variable {b : TraceDb} {s : Traced}

lemma start (hb : Drainable b) (versions : List Call) : DrainInv b ⟨b, [], versions⟩ where
  dict := rfl
  rooted := hb.rooted
  kept := NodesKept.refl b
  rows := fun r hr => ⟨r, Or.inl hr, rfl⟩
  mapped := by simp
  taken := by simp
  pending := by simp
  parentAt := by simp
  placed := by simp
  used := fun _ hr => Or.inl (Table.hasKey_of_mem hr)
  resolves := by simp

lemma hasKey_iff (h : DrainInv b s) {id : UInt32} : s.db.callToNode.HasKey id ↔
    b.callToNode.HasKey id ∨ ∃ f ∈ s.log, f.call.callId = id := by
  simp only [Table.HasKey, h.mapped, List.mem_append, List.mem_map]
  constructor
  · rintro ⟨m, hm | ⟨f, hf, rfl⟩, rfl⟩
    · exact Or.inl ⟨m, hm, rfl⟩
    · exact Or.inr ⟨f, hf, rfl⟩
  · rintro (⟨m, hm, rfl⟩ | ⟨f, hf, rfl⟩)
    · exact ⟨m, Or.inl hm, rfl⟩
    · exact ⟨_, Or.inr ⟨f, hf, rfl⟩, rfl⟩

lemma linked (h : DrainInv b s) (hb : Drainable b) : Linked s where
  root := h.rooted.hasKey_root
  nodes := by
    intro m hm
    rw [h.mapped, List.mem_append, List.mem_map] at hm
    rcases hm with hm | ⟨f, hf, rfl⟩
    · exact h.kept.hasKey (hb.nodes m hm)
    · obtain ⟨r, hr, hid, -⟩ := h.placed f hf
      exact ⟨r, hr, hid⟩
  logged := by
    intro f hf
    rw [h.mapped]
    exact List.mem_append_right _ (List.mem_map_of_mem hf)
  disjoint := by
    intro p hp hk
    obtain ⟨hp, hlog⟩ := (h.pending p).mp hp
    rcases h.hasKey_iff.mp hk with hk | ⟨f, hf, hid⟩
    · exact hb.disjoint p hp hk
    · exact hlog f hf hid

/-- No call of a fold has the id that means "no parent". -/
lemma mapped_ne_zero (h : DrainInv b s) (hb : Drainable b) {m : CallToNodeRow}
    (hm : m ∈ s.db.callToNode.rows) : m.callId ≠ 0 := by
  rw [h.mapped, List.mem_append, List.mem_map] at hm
  rcases hm with hm | ⟨f, hf, rfl⟩
  · exact hb.mapped_ne_zero m hm
  · exact hb.pending_ne_zero _ (h.taken f hf)

/-- The two ways to take the depth of a parent agree. -/
lemma depth_of_below (h : DrainInv b s) {parent : UInt32} {n : ℕ} {d : UInt32}
    (hd : s.DepthBelow parent n d) {q : NodeRow} (hq : q ∈ s.db.nodes.rows) (hid : q.nodeId = n) :
    d = q.depth + 1 := by
  rcases hd with ⟨r, hr, hrid, rfl⟩ | ⟨f, hf, -, hnode, rfl⟩
  · rw [s.db.nodes.eq_of_key hq hr (hid.trans hrid.symm)]
  · obtain ⟨r, hr, hrid, -, -, hdepth⟩ := h.placed f hf
    rw [s.db.nodes.eq_of_key hq hr (hid.trans (hrid.trans hnode).symm), hdepth]

/-- No fold so far touched the node that will be made next. -/
lemma ne_next (h : DrainInv b s) (hb : Drainable b) {f : Folded} (hf : f ∈ s.log) :
    f.node ≠ nextNodeId s.db.nodes ∧ f.parentNode ≠ nextNodeId s.db.nodes := by
  obtain ⟨r, hr, hid, -⟩ := h.placed f hf
  exact ⟨(lt_nextNodeId ⟨r, hr, hid⟩).ne,
    (lt_nextNodeId ((h.linked hb).hasKey_parent (h.parentAt f hf))).ne⟩

/-- Every row before the fold is touched, the new bucket included, is made by the log. -/
lemma rows_ensureNode (h : DrainInv b s) (hb : Drainable b) (p : ℕ) (c : Call) :
    ∀ r ∈ (ensureNode s.db.nodes p c).rows, ∃ r₀, b.Origin r₀ ∧ r = r₀.touchAll s.log := by
  intro r hr
  rcases mem_ensureNode.mp hr with hr | ⟨-, rfl⟩
  · exact h.rows r hr
  · have hnew : ¬ b.nodes.HasKey (nextNodeId s.db.nodes) := fun hk =>
      not_hasKey_nextNodeId _ (h.kept.hasKey hk)
    exact ⟨_, Or.inr ⟨hnew, _, _, _, rfl⟩,
      (NodeRow.touchAll_of_ne _ _ fun f hf => h.ne_next hb hf).symm⟩

/-- A pending call whose function and parent are known resolves. -/
lemma resolvesFrom (h : DrainInv b s) {p : PendingCall} (hp : p ∈ b.pendingCalls.rows)
    (hfn : b.dict.HasKey p.fnId) {n : ℕ} (hpar : ParentAt s.db p.parentCallId n) :
    ResolvesFrom b p.callId := by
  refine Resolves.row (r := p) ⟨hp, hfn⟩ fun k hk => ?_
  by_cases h0 : p.parentCallId = 0
  · simp [PendingCall.need, h0] at hk
  · obtain rfl : p.parentCallId = k := by simpa [PendingCall.need, h0] using hk
    have hmem := hpar.resolve_left fun hz => h0 hz.1
    rcases h.hasKey_iff.mp (Table.hasKey_of_mem hmem) with hbase | ⟨f, hf, hid⟩
    · exact .base hbase
    · have hid' : f.call.callId = p.parentCallId := hid
      rw [← hid']
      exact h.resolves f hf

/-- Resolving a pending call adds its fold. -/
theorem resolve (h : DrainInv b s) (hb : Drainable b) {p : PendingCall} {n : ℕ} {d : UInt32}
    (hp : p ∈ s.db.pendingCalls.rows) (hfn : s.db.dict.HasKey p.fnId)
    (hpar : ParentAt s.db p.parentCallId n) (hd : s.DepthBelow p.parentCallId n d) :
    DrainInv b ((s.unpark p).fold n (p.toCall d)) := by
  have hlinked := h.linked hb
  obtain ⟨q, hq, rfl⟩ := hlinked.hasKey_parent hpar
  obtain rfl := h.depth_of_below hd hq rfl
  obtain ⟨hpb, hplog⟩ := (h.pending p).mp hp
  have hkey : ¬ s.db.callToNode.HasKey p.callId := hlinked.disjoint p hp
  have hunpark : Rooted (s.unpark p).db :=
    ⟨h.rooted.root, h.rooted.path, h.rooted.depth, h.rooted.unique⟩
  have hrooted : Rooted ((s.unpark p).fold q.nodeId (p.toCall (q.depth + 1))).db :=
    hunpark.fold hq rfl
  have hkept : NodesKept s.db ((s.unpark p).fold q.nodeId (p.toCall (q.depth + 1))).db :=
    NodesKept.fold (s.unpark p).db _ _
  constructor
  · exact h.dict
  · exact hrooted
  · exact h.kept.trans hkept
  · intro r hr
    obtain ⟨r₁, hr₁, rfl⟩ := mem_foldNodes.mp hr
    obtain ⟨r₀, hr₀, rfl⟩ := h.rows_ensureNode hb _ _ r₁ hr₁
    exact ⟨r₀, hr₀, (r₀.touchAll_concat _ _).symm⟩
  · show (s.db.callToNode.insertOrIgnore _).rows = _ ++ (s.log ++ [_]).map _
    rw [Table.rows_insertOrIgnore hkey, h.mapped, List.map_append, List.append_assoc]
    rfl
  · exact Traced.forall_mem_log_fold h.taken hpb
  · intro p'
    show p' ∈ (s.db.pendingCalls.erase p.callId).rows ↔ _
    rw [Table.mem_erase, h.pending, and_assoc]
    refine and_congr_right fun _ =>
      ⟨fun hne => Traced.forall_mem_log_fold hne.1 hne.2.symm, fun hall => ?_⟩
    exact ⟨fun f hf => hall f (List.mem_append_left _ hf),
      (hall _ (List.mem_append_right _ (List.mem_singleton.mpr rfl))).symm⟩
  · exact Traced.forall_mem_log_fold (fun f hf => WellFormed.parentAt_fold (h.parentAt f hf))
      (WellFormed.parentAt_fold hpar)
  · refine Traced.forall_mem_log_fold (fun f hf => ?_) ?_
    · obtain ⟨r, hr, hid, hpar', hfn', hdep⟩ := h.placed f hf
      obtain ⟨r', hr', hid', hpar'', hfn'', hdep'⟩ := hkept r hr
      exact ⟨r', hr', hid'.trans hid, hpar''.trans hpar', hfn''.trans hfn', hdep'.trans hdep⟩
    · exact hunpark.exists_bucket hq rfl
  · intro r hr
    obtain ⟨r₁, hr₁, rfl⟩ := mem_foldNodes.mp hr
    rw [NodeRow.nodeId_touch]
    rcases mem_ensureNode.mp hr₁ with hr₁ | ⟨hnone, rfl⟩
    · refine (h.used r₁ hr₁).imp_right fun hlog => ?_
      obtain ⟨f, hf, hid⟩ := hlog
      exact ⟨f, List.mem_append_left _ hf, hid⟩
    · refine Or.inr ⟨_, List.mem_append_right _ (List.mem_singleton.mpr rfl), ?_⟩
      have hnone' : findNode s.db.nodes q.nodeId p.fnId = none := hnone
      simp [foldOf, foldTarget, Traced.unpark, PendingCall.toCall, hnone', NodeRow.nodeId_blank]
  · exact Traced.forall_mem_log_fold h.resolves (h.resolvesFrom hpb (h.dict ▸ hfn) hpar)

lemma step (h : DrainInv b s) (hb : Drainable b) {e : Event} {t : Traced} (he : e.IsResolve)
    (hstep : Step s e t) : DrainInv b t := by
  cases hstep with
  | skip _ | fold _ _ _ | park _ _ _ => exact absurd he id
  | resolve hp hfn hpar hd => exact h.resolve hb hp hfn hpar hd

lemma of_run (h : DrainInv b s) (hb : Drainable b) {es : List Event} {t : Traced}
    (hes : ∀ e ∈ es, e.IsResolve) (hrun : Run Step s es t) : DrainInv b t :=
  hrun.invariant (fun _ _ _ he hstep hinv => hinv.step hb he hstep) hes h

end DrainInv

end PhpTreeViz
