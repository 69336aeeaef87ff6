import PhpTreeViz.Storage.Drainable

/-!
# The drain against a rescan

The drain asks for the resolvable rows once and then for the children of each row that it resolves.
A rescan looks at the whole table again and again and folds any row that it can, in any order. Both
end with the same calls mapped, the same rows pending and the same tree, since a run of `resolve`
steps that leaves nothing resolvable folds the calls that can be resolved from the start and no
others. Only a sum that leaves 64 bits depends on the order.
-/

namespace PhpTreeViz

open Core

/-! ### Two runs from one database -/

namespace DrainInv

section one

variable {b : TraceDb} {s : Traced} (h : DrainInv b s)
include h

lemma nodup_log : (s.log.map fun f => f.call.callId).Nodup := by
  have hnodup := s.db.callToNode.nodup
  rw [h.mapped, List.map_append, List.map_map] at hnodup
  exact hnodup.of_append_right

lemma up_node {f : Folded} (hf : f ∈ s.log) :
    s.db.up f.node = some (f.parentNode, f.call.fnId) := by
  obtain ⟨r, hr, hid, hpar, hfn, -⟩ := h.placed f hf
  rw [← hid, up_of_mem hr, hpar, hfn, Option.map_some]

/-- The path of a fold extends the path of its parent node by its function. -/
lemma hasPath_node_iff {f : Folded} (hf : f ∈ s.log) {π : List UInt32} :
    s.db.HasPath f.node π ↔ ∃ π', π = π' ++ [f.call.fnId] ∧ s.db.HasPath f.parentNode π' := by
  have hup := h.up_node hf
  constructor
  · intro hπ
    generalize f.node = n at hπ hup
    cases hπ with
    | root => simp [h.rooted.up_root] at hup
    | child hup' hp =>
      obtain ⟨rfl, rfl⟩ := Prod.mk.inj (Option.some.inj (hup'.symm.trans hup))
      exact ⟨_, rfl, hp⟩
  · rintro ⟨π', rfl, hπ'⟩
    exact .child hup hπ'

lemma depth_root {r : NodeRow} (hr : r ∈ s.db.nodes.rows) (hid : r.nodeId = syntheticRootNodeId)
    {r₀ : NodeRow} (hr₀ : r₀ ∈ b.nodes.rows) (hid₀ : r₀.nodeId = syntheticRootNodeId) :
    r.depth = r₀.depth := by
  obtain ⟨r', hr', hid', -, -, hdepth⟩ := h.kept r₀ hr₀
  rw [s.db.nodes.eq_of_key hr hr' (hid.trans (hid'.trans hid₀).symm), hdepth]

end one

section two

variable {b : TraceDb} {s t : Traced} (hs : DrainInv b s) (ht : DrainInv b t)
include hs ht

/-- What one run maps, the other maps too when it leaves nothing resolvable. -/
lemma hasKey_of_saturated (hsat : Saturated t.db) {id : UInt32}
    (hid : s.db.callToNode.HasKey id) : t.db.callToNode.HasKey id := by
  rcases hs.hasKey_iff.mp hid with hbase | ⟨f, hf, rfl⟩
  · exact ht.hasKey_iff.mpr (Or.inl hbase)
  · refine (hs.resolves f hf).mem_of_closed (fun id hid => ht.hasKey_iff.mpr (Or.inl hid)) ?_
    rintro p ⟨hp, hfn⟩ hneed
    by_contra hnot
    have hpend : p ∈ t.db.pendingCalls.rows := (ht.pending p).mpr
      ⟨hp, fun g hg hid => hnot (ht.hasKey_iff.mpr (Or.inr ⟨g, hg, hid⟩))⟩
    refine hsat p hpend ⟨ht.dict ▸ hfn, ?_⟩
    by_cases h0 : p.parentCallId = 0
    · exact Or.inl h0
    · exact Or.inr (hneed _ (by simp [PendingCall.need, h0]))

lemma ofCall_eq {f g : Folded} (hf : f ∈ s.log) (hg : g ∈ t.log)
    (hid : g.call.callId = f.call.callId) :
    PendingCall.ofCall g.call = PendingCall.ofCall f.call :=
  b.pendingCalls.eq_of_key (ht.taken g hg) (hs.taken f hf) hid

variable (hb : Drainable b)
include hb

/-- The parents of one call have the same path in both runs. -/
lemma hasPath_parentNode {f g : Folded} (hf : f ∈ s.log) (hg : g ∈ t.log)
    (hid : g.call.callId = f.call.callId) {π : List UInt32}
    (hπ : s.db.HasPath f.parentNode π) : t.db.HasPath g.parentNode π := by
  induction hn : π.length using Nat.strong_induction_on generalizing f g π with
  | _ k ih =>
    have hparent : g.call.parent = f.call.parent :=
      congrArg PendingCall.parentCallId (hs.ofCall_eq ht hf hg hid)
    have hpf := hs.parentAt f hf
    have hpg := ht.parentAt g hg
    rw [hparent] at hpg
    rcases hpf with ⟨h0, hfroot⟩ | hmf <;> rcases hpg with ⟨h0', hgroot⟩ | hmg
    · rw [hfroot] at hπ
      rw [hgroot, hs.rooted.path_unique hπ .root]
      exact .root
    · exact absurd h0 (ht.mapped_ne_zero hb hmg)
    · exact absurd h0' (hs.mapped_ne_zero hb hmf)
    · rw [hs.mapped, List.mem_append, List.mem_map] at hmf
      rw [ht.mapped, List.mem_append, List.mem_map] at hmg
      rcases hmf with hmf | ⟨f', hf', hfrow⟩ <;> rcases hmg with hmg | ⟨g', hg', hgrow⟩
      · -- the parent was mapped before
        have hnode := congrArg CallToNodeRow.nodeId (b.callToNode.eq_of_key hmf hmg rfl)
        have hkey := hb.nodes _ hmf
        rw [← show f.parentNode = g.parentNode from hnode]
        exact ht.kept.hasPath ((hs.kept.hasPath_iff hb.rooted hs.rooted hkey).mp hπ)
      · obtain ⟨hgid, -⟩ := CallToNodeRow.mk.inj hgrow
        exact absurd ⟨_, hmf, hgid.symm⟩ (hb.disjoint _ (ht.taken g' hg'))
      · obtain ⟨hfid, -⟩ := CallToNodeRow.mk.inj hfrow
        exact absurd ⟨_, hmg, hfid.symm⟩ (hb.disjoint _ (hs.taken f' hf'))
      · -- the parent is a call of both logs, with a shorter path above it
        obtain ⟨hfid, hfnode⟩ := CallToNodeRow.mk.inj hfrow
        obtain ⟨hgid, hgnode⟩ := CallToNodeRow.mk.inj hgrow
        have hid' : g'.call.callId = f'.call.callId := hgid.trans hfid.symm
        rw [← hfnode] at hπ
        obtain ⟨π', rfl, hπ'⟩ := (hs.hasPath_node_iff hf').mp hπ
        rw [← hgnode]
        refine (ht.hasPath_node_iff hg').mpr ⟨π', ?_, ih π'.length ?_ hf' hg' hid' hπ' rfl⟩
        · rw [show g'.call.fnId = f'.call.fnId from
            congrArg PendingCall.fnId (hs.ofCall_eq ht hf' hg' hid')]
        · rw [← hn, List.length_append, List.length_singleton]
          omega

lemma hasPath_node {f g : Folded} (hf : f ∈ s.log) (hg : g ∈ t.log)
    (hid : g.call.callId = f.call.callId) {π : List UInt32}
    (hπ : s.db.HasPath f.node π) : t.db.HasPath g.node π := by
  obtain ⟨π', rfl, hπ'⟩ := (hs.hasPath_node_iff hf).mp hπ
  refine (ht.hasPath_node_iff hg).mpr ⟨π', ?_, hs.hasPath_parentNode ht hb hf hg hid hπ'⟩
  rw [show g.call.fnId = f.call.fnId from congrArg PendingCall.fnId (hs.ofCall_eq ht hf hg hid)]

/-- Nodes with the same path have the same depth. -/
lemma depth_eq {r r' : NodeRow} (hr : r ∈ s.db.nodes.rows) (hr' : r' ∈ t.db.nodes.rows)
    {π : List UInt32} (hπ : s.db.HasPath r.nodeId π) (hπ' : t.db.HasPath r'.nodeId π) :
    r.depth = r'.depth := by
  refine hs.rooted.depth_eq ht.rooted (fun q hq q' hq' hid hid' => ?_) hr hr' hπ hπ'
  obtain ⟨r₀, hr₀, hid₀, -⟩ := hb.rooted.root
  rw [hs.depth_root hq hid hr₀ hid₀, ht.depth_root hq' hid' hr₀ hid₀]

/-- A call that one run folds is folded by the other, as the same call and at the same place. -/
lemma exists_fold (hsat : Saturated t.db) {f : Folded} (hf : f ∈ s.log) : ∃ g ∈ t.log,
    g.call = f.call ∧ (∀ π, s.db.HasPath f.node π → t.db.HasPath g.node π) ∧
      ∀ π, s.db.HasPath f.parentNode π → t.db.HasPath g.parentNode π := by
  have hk := hs.hasKey_of_saturated ht hsat (hs.hasKey_iff.mpr (Or.inr ⟨f, hf, rfl⟩))
  rcases ht.hasKey_iff.mp hk with hbase | ⟨g, hg, hid⟩
  · exact absurd hbase (hb.disjoint _ (hs.taken f hf))
  have hpath : ∀ π, s.db.HasPath f.node π → t.db.HasPath g.node π := fun _ hπ =>
    hs.hasPath_node ht hb hf hg hid hπ
  refine ⟨g, hg, ?_, hpath, fun π => hs.hasPath_parentNode ht hb hf hg hid⟩
  obtain ⟨r, hr, hrid, -, -, hdepth⟩ := hs.placed f hf
  obtain ⟨r', hr', hrid', -, -, hdepth'⟩ := ht.placed g hg
  obtain ⟨π, hπ⟩ := hs.rooted.path r hr
  have heq := hs.depth_eq ht hb hr hr' hπ (by rw [hrid']; exact hpath π (hrid ▸ hπ))
  have hdep : g.call.depth = f.call.depth := by rw [← hdepth', ← heq, hdepth]
  exact (PendingCall.ofCall_inj (hs.ofCall_eq ht hf hg hid)).trans (by rw [hdep])

/-- Every node has a counterpart with the same path. -/
lemma exists_node (hsat : Saturated t.db) {r : NodeRow} (hr : r ∈ s.db.nodes.rows)
    {π : List UInt32} (hπ : s.db.HasPath r.nodeId π) :
    ∃ r' ∈ t.db.nodes.rows, t.db.HasPath r'.nodeId π := by
  obtain ⟨n, hn⟩ : ∃ n, t.db.HasPath n π := by
    rcases hs.used r hr with hkey | ⟨f, hf, hnode⟩
    · exact ⟨_, ht.kept.hasPath ((hs.kept.hasPath_iff hb.rooted hs.rooted hkey).mp hπ)⟩
    · obtain ⟨g, -, -, hpath, -⟩ := hs.exists_fold ht hb hsat hf
      exact ⟨_, hpath π (hnode ▸ hπ)⟩
  obtain ⟨r', hr', rfl⟩ := ht.rooted.hasKey hn
  exact ⟨r', hr', hn⟩

/-- A node that was there before is the counterpart of itself. -/
lemma nodeId_eq_of_hasKey {r r' : NodeRow} {π : List UInt32} (hπ : s.db.HasPath r.nodeId π)
    (hπ' : t.db.HasPath r'.nodeId π) (hkey : b.nodes.HasKey r.nodeId) : r'.nodeId = r.nodeId :=
  ht.rooted.eq_of_path hπ'
    (ht.kept.hasPath ((hs.kept.hasPath_iff hb.rooted hs.rooted hkey).mp hπ))

/-- Counterparts have come from the same row. -/
lemma exists_origin {r r' : NodeRow} (hr : r ∈ s.db.nodes.rows) (hr' : r' ∈ t.db.nodes.rows)
    {π : List UInt32} (hπ : s.db.HasPath r.nodeId π) (hπ' : t.db.HasPath r'.nodeId π) :
    ∃ r₀ r₀', r = r₀.touchAll s.log ∧ r' = r₀'.touchAll t.log ∧
      r₀.callCount = r₀'.callCount ∧ r₀.abnormalExitCount = r₀'.abnormalExitCount ∧
      ∀ col : Column, col.get (b.rowOf r.nodeId) = col.get r₀ ∧ col.get r₀ = col.get r₀' := by
  obtain ⟨r₀, hr₀, rfl⟩ := hs.rows r hr
  obtain ⟨r₀', hr₀', rfl⟩ := ht.rows r' hr'
  simp only [NodeRow.nodeId_touchAll] at hπ hπ' ⊢
  refine ⟨r₀, r₀', rfl, rfl, ?_⟩
  by_cases hkey : b.nodes.HasKey r₀.nodeId ∨ b.nodes.HasKey r₀'.nodeId
  · have hid : r₀'.nodeId = r₀.nodeId := by
      rcases hkey with hkey | hkey
      · exact hs.nodeId_eq_of_hasKey ht hb hπ hπ' hkey
      · exact (ht.nodeId_eq_of_hasKey hs hb hπ' hπ hkey).symm
    rw [hr₀.callCount, hr₀'.callCount, hr₀.abnormalExitCount, hr₀'.abnormalExitCount, hid]
    refine ⟨rfl, rfl, fun col => ⟨(hr₀.column col).symm, ?_⟩⟩
    rw [hr₀.column col, hr₀'.column col, hid]
  · obtain ⟨hkey, hkey'⟩ := not_or.mp hkey
    rw [hr₀.callCount, hr₀'.callCount, hr₀.abnormalExitCount, hr₀'.abnormalExitCount,
      TraceDb.rowOf_of_not_hasKey hkey, TraceDb.rowOf_of_not_hasKey hkey']
    refine ⟨rfl, rfl, fun col => ⟨?_, ?_⟩⟩
    · rw [hr₀.column col, TraceDb.rowOf_of_not_hasKey hkey]
    · rw [hr₀.column col, hr₀'.column col, TraceDb.rowOf_of_not_hasKey hkey,
        TraceDb.rowOf_of_not_hasKey hkey', col.get_blank, col.get_blank]

/-- The same calls went to counterparts. -/
lemma calls_perm (hsat : Saturated s.db) (hsat' : Saturated t.db) {slot : Folded → ℕ}
    (hslot : slot = Folded.node ∨ slot = Folded.parentNode) {r r' : NodeRow} {π : List UInt32}
    (hπ : s.db.HasPath r.nodeId π) (hπ' : t.db.HasPath r'.nodeId π) :
    ((s.log.filter (slot · = r.nodeId)).map Folded.call).Perm
      ((t.log.filter (slot · = r'.nodeId)).map Folded.call) := by
  have hnodup : ∀ {s : Traced}, DrainInv b s → ∀ n,
      ((s.log.filter (slot · = n)).map Folded.call).Nodup := by
    intro s hs n
    refine List.Nodup.of_map Call.callId ?_
    rw [List.map_map]
    exact hs.nodup_log.sublist (List.filter_sublist.map _)
  have hsub : ∀ {s t : Traced} {r r' : NodeRow}, DrainInv b s → DrainInv b t → Saturated t.db →
      s.db.HasPath r.nodeId π → t.db.HasPath r'.nodeId π →
      (s.log.filter (slot · = r.nodeId)).map Folded.call ⊆
        (t.log.filter (slot · = r'.nodeId)).map Folded.call := by
    intro s t r r' hs ht hsat hπ hπ' c hc
    obtain ⟨f, hf, rfl⟩ := List.mem_map.mp hc
    obtain ⟨hf, hfr⟩ := List.mem_filter.mp hf
    obtain ⟨g, hg, hcall, hnode, hparent⟩ := hs.exists_fold ht hb hsat hf
    have hpath : t.db.HasPath (slot g) π := by
      rw [← of_decide_eq_true hfr] at hπ
      rcases hslot with rfl | rfl
      · exact hnode π hπ
      · exact hparent π hπ
    exact List.mem_map.mpr
      ⟨g, List.mem_filter.mpr ⟨hg, decide_eq_true (ht.rooted.eq_of_path hpath hπ')⟩, hcall⟩
  exact (List.perm_ext_iff_of_nodup (hnodup hs _) (hnodup ht _)).mpr fun _ =>
    ⟨fun hc => hsub hs ht hsat' hπ hπ' hc, fun hc => hsub ht hs hsat hπ' hπ hc⟩

end two

end DrainInv

/-! ### The rescan -/

/-- One fold of a rescan: any pending row whose function is known and whose parent is 0 or mapped,
one level below the depth that the parent's node has stored. -/
inductive RescanStep (known : List UInt32) :
    TraceDb × AggregateOutcome → Folded → TraceDb × AggregateOutcome → Prop where
  | fold {db db' : TraceDb} {o o' : AggregateOutcome} {p : PendingCall} {n k : ℕ} {d : UInt32} :
      p ∈ db.pendingCalls.rows → p.fnId ∈ known → resolveParent db p.parentCallId = some n →
      seedDepth db ⟨p, n⟩ = .ok d → resolvePendingRow db ⟨p, n⟩ d o = .ok (k, db', o') →
      RescanStep known (db, o) ⟨p.toCall d, n, k⟩ (db', o')

namespace DrainInv

variable {b : TraceDb} {known : List UInt32} {s t : Traced} {o : AggregateOutcome}

lemma resolveParent_eq (h : DrainInv b s) (hb : Drainable b) {parent : UInt32} {n : ℕ}
    (hp : ParentAt s.db parent n) : resolveParent s.db parent = some n := by
  rcases hp with ⟨rfl, rfl⟩ | hmem
  · exact if_pos rfl
  · rw [resolveParent, if_neg (h.mapped_ne_zero hb hmem), Table.find?_of_mem hmem, Option.map_some]

lemma seedDepth_eq (h : DrainInv b s) (hb : Drainable b) {p : PendingCall} {n : ℕ} {d : UInt32}
    (hp : ParentAt s.db p.parentCallId n) (hd : s.DepthBelow p.parentCallId n d) :
    seedDepth s.db ⟨p, n⟩ = .ok d := by
  obtain ⟨q, hq, rfl⟩ := (h.linked hb).hasKey_parent hp
  rw [seedDepth, Table.find?_of_mem hq, h.depth_of_below hd hq rfl]

/-- A `resolve` step is a fold of a rescan. -/
lemma rescanStep (h : DrainInv b s) (hb : Drainable b)
    (hknown : ∀ fn, fn ∈ known ↔ b.dict.HasKey fn) {p : PendingCall} {n : ℕ} {d : UInt32}
    (hp : p ∈ s.db.pendingCalls.rows) (hfn : s.db.dict.HasKey p.fnId)
    (hpar : ParentAt s.db p.parentCallId n) (hd : s.DepthBelow p.parentCallId n d) :
    RescanStep known (s.db, o) (foldOf s.db.nodes n (p.toCall d))
      (((s.unpark p).fold n (p.toCall d)).db, o.record (.resolve p d n)) :=
  .fold hp ((hknown _).mpr (h.dict ▸ hfn)) (h.resolveParent_eq hb hpar) (h.seedDepth_eq hb hpar hd)
    (resolvePendingRow_eq (h.linked hb) ⟨p, n⟩ hfn hpar d o)

/-- A fold of a rescan is a `resolve` step. -/
lemma exists_resolve (h : DrainInv b s) (hb : Drainable b)
    (hknown : ∀ fn, fn ∈ known ↔ b.dict.HasKey fn) {f : Folded} {x : TraceDb × AggregateOutcome}
    (hstep : RescanStep known (s.db, o) f x) : ∃ e t, e.IsResolve ∧ Step s e t ∧
      t.log = s.log ++ [f] ∧ x = (t.db, o.record e) := by
  generalize hy : (s.db, o) = y at hstep
  cases hstep with
  | @fold db db' o₁ o' p n k d hp hfn hpar hd hres =>
    obtain ⟨rfl, rfl⟩ := Prod.mk.inj hy
    have hfn' : s.db.dict.HasKey p.fnId := h.dict ▸ (hknown _).mp hfn
    have hparent := resolveParent_eq_some hpar
    have hbelow : s.DepthBelow p.parentCallId n d := by
      obtain ⟨q, hq, rfl⟩ := (h.linked hb).hasKey_parent hparent
      rw [seedDepth, Table.find?_of_mem hq] at hd
      exact Or.inl ⟨q, hq, rfl, (Except.ok.inj hd).symm⟩
    have heq := resolvePendingRow_eq (h.linked hb) ⟨p, n⟩ hfn' hparent d o
    obtain ⟨rfl, hx⟩ := Prod.mk.inj (Except.ok.inj (hres.symm.trans heq))
    exact ⟨.resolve p d n, _, trivial, .resolve hp hfn' hparent hbelow, rfl, hx⟩

lemma run_of_rescan (h : DrainInv b s) (hb : Drainable b)
    (hknown : ∀ fn, fn ∈ known ↔ b.dict.HasKey fn) {log : List Folded}
    {x : TraceDb × AggregateOutcome} (hrun : Run (RescanStep known) (s.db, o) log x) :
    ∃ es t, (∀ e ∈ es, e.IsResolve) ∧ Run Step s es t ∧ t.log = s.log ++ log ∧
      x = (t.db, es.foldl AggregateOutcome.record o) := by
  generalize hy : (s.db, o) = y at hrun
  induction hrun generalizing s o with
  | nil y => exact ⟨[], s, by simp, .nil s, by simp, hy.symm⟩
  | @cons y y' z f log hstep _ ih =>
    subst hy
    obtain ⟨e, u, he, hfirst, hlog, rfl⟩ := h.exists_resolve hb hknown hstep
    obtain ⟨es, t, hes, hrest, hlog', rfl⟩ := ih (h.step hb he hfirst) rfl
    exact ⟨e :: es, t, by simpa using ⟨he, hes⟩, .cons hfirst hrest,
      by rw [hlog', hlog, List.append_assoc]; rfl, rfl⟩

lemma rescan_of_run (h : DrainInv b s) (hb : Drainable b)
    (hknown : ∀ fn, fn ∈ known ↔ b.dict.HasKey fn) {es : List Event}
    (hes : ∀ e ∈ es, e.IsResolve) (hrun : Run Step s es t) :
    ∃ log, t.log = s.log ++ log ∧
      Run (RescanStep known) (s.db, o) log (t.db, es.foldl AggregateOutcome.record o) := by
  induction hrun generalizing o with
  | nil s => exact ⟨[], by simp, .nil _⟩
  | @cons s u t e es hstep _ ih =>
    simp only [List.mem_cons, forall_eq_or_imp] at hes
    have hu := h.step hb hes.1 hstep
    cases hstep with
    | skip _ | fold _ _ _ | park _ _ _ => exact absurd hes.1 id
    | resolve hp hfn hpar hd =>
      obtain ⟨log, hlog, hrest⟩ := ih hu hes.2
      exact ⟨_ :: log, by rw [hlog]; exact List.append_assoc _ _ _,
        .cons (h.rescanStep hb hknown hp hfn hpar hd) hrest⟩

/-- A rescan is not stuck while a row can be resolved. -/
lemma exists_rescanStep (h : DrainInv b s) (hb : Drainable b)
    (hknown : ∀ fn, fn ∈ known ↔ b.dict.HasKey fn) {p : PendingCall}
    (hp : p ∈ s.db.pendingCalls.rows) (hres : Resolvable s.db p) :
    ∃ f x, RescanStep known (s.db, o) f x ∧ PendingCall.ofCall f.call = p := by
  obtain ⟨n, hn⟩ : ∃ n, ParentAt s.db p.parentCallId n := by
    rcases hres.2 with h0 | ⟨m, hm, hid⟩
    · exact ⟨_, Or.inl ⟨h0, rfl⟩⟩
    · exact ⟨m.nodeId, Or.inr (hid ▸ hm)⟩
  obtain ⟨q, hq, rfl⟩ := (h.linked hb).hasKey_parent hn
  exact ⟨_, _, h.rescanStep hb hknown hp hres.1 hn (Or.inl ⟨q, hq, rfl, rfl⟩), rfl⟩

end DrainInv

/-! ### What is compared -/

/-- The `total_*` columns of `nodes`. -/
def Column.all : List Column :=
  [.totalWall, .childrenTotalWall, .totalCpuU, .totalCpuS, .totalMemDelta]

lemma Column.slot_of_mem_all {col : Column} (h : col ∈ Column.all) :
    col.slot = Folded.node ∨ col.slot = Folded.parentNode := by
  simp only [Column.all, List.mem_cons, List.not_mem_nil, or_false] at h
  rcases h with rfl | rfl | rfl | rfl | rfl
  · exact Or.inl rfl
  · exact Or.inr rfl
  · exact Or.inl rfl
  · exact Or.inl rfl
  · exact Or.inl rfl

/-- Two databases that were drained from `db`, `x` by the folds in `log`, are the same up to node
ids and the order of rows. A sum is the same when the numbers that `log` added to its cell can be
added in any order without leaving 64 bits. -/
structure SameDrain (db : TraceDb) (log : List Folded) (x y : TraceDb × AggregateOutcome) :
    Prop where
  mapped : ∀ id, x.1.callToNode.HasKey id ↔ y.1.callToNode.HasKey id
  pendingCalls : x.1.pendingCalls.rows.Perm y.1.pendingCalls.rows
  pendingResolved : x.2.pendingResolved = y.2.pendingResolved
  rooted : Rooted x.1 ∧ Rooted y.1
  paths : ∀ π, (∃ r ∈ x.1.nodes.rows, x.1.HasPath r.nodeId π) ↔
    ∃ r ∈ y.1.nodes.rows, y.1.HasPath r.nodeId π
  counts : ∀ r ∈ x.1.nodes.rows, ∀ r' ∈ y.1.nodes.rows, ∀ π,
    x.1.HasPath r.nodeId π → y.1.HasPath r'.nodeId π →
      r.depth = r'.depth ∧ r.callCount = r'.callCount ∧ r.abnormalExitCount = r'.abnormalExitCount
  sums : ∀ col ∈ Column.all, ∀ r ∈ x.1.nodes.rows, ∀ r' ∈ y.1.nodes.rows, ∀ π,
    x.1.HasPath r.nodeId π → y.1.HasPath r'.nodeId π →
      (col.get (db.rowOf r.nodeId)).FitsFrom (col.values log r.nodeId) → col.get r = col.get r'

/-- The drain of `db` ends in `after`. It makes the folds in `log`, each of which takes its own row
from `pending_calls`, and leaves no row that could be folded. -/
structure Drains [Engine] (known : List UInt32) (db : TraceDb) (o : AggregateOutcome)
    (log : List Folded) (after : TraceDb) (o' : AggregateOutcome) : Prop where
  result : drainPending known db o = .ok (after, o')
  ends : ∃ worklist mid om, resolveRows known seedDepth (drainResolvable db) db o =
      .ok (worklist, mid, om) ∧
    ∀ fuel, worklist.length + mid.pendingCalls.rows.length ≤ fuel →
      cascade known fuel worklist mid om = .ok ([], after, o')
  folds : db.pendingCalls.rows.Perm
    ((log.map fun f => PendingCall.ofCall f.call) ++ after.pendingCalls.rows)
  pendingResolved : o'.pendingResolved = o.pendingResolved + log.length
  rescan : Run (RescanStep known) (db, o) log (after, o')
  saturated : Saturated after

namespace DrainInv

variable {b : TraceDb} {s t : Traced}

/-- The rows that are gone are those of the folds. -/
lemma pendingCalls_perm (h : DrainInv b s) : b.pendingCalls.rows.Perm
    ((s.log.map fun f => PendingCall.ofCall f.call) ++ s.db.pendingCalls.rows) := by
  have hnodup : (s.log.map fun f => PendingCall.ofCall f.call).Nodup := by
    refine List.Nodup.of_map PendingCall.callId ?_
    rw [List.map_map]
    exact h.nodup_log
  refine (List.perm_ext_iff_of_nodup b.pendingCalls.nodup_rows
    (hnodup.append s.db.pendingCalls.nodup_rows ?_)).mpr fun p => ?_
  · intro p hp hp'
    obtain ⟨f, hf, rfl⟩ := List.mem_map.mp hp
    exact ((h.pending _).mp hp').2 f hf rfl
  · rw [List.mem_append, h.pending, List.mem_map]
    constructor
    · intro hp
      by_cases hlog : ∃ f ∈ s.log, f.call.callId = p.callId
      · obtain ⟨f, hf, hid⟩ := hlog
        exact Or.inl ⟨f, hf, b.pendingCalls.eq_of_key (h.taken f hf) hp hid⟩
      · exact Or.inr ⟨hp, fun f hf hid => hlog ⟨f, hf, hid⟩⟩
    · rintro (⟨f, hf, rfl⟩ | hp)
      · exact h.taken f hf
      · exact hp.1

section two

variable (hs : DrainInv b s) (ht : DrainInv b t) (hsat : Saturated s.db) (hsat' : Saturated t.db)
include hs ht hsat hsat'

lemma mapped_iff (id : UInt32) : s.db.callToNode.HasKey id ↔ t.db.callToNode.HasKey id :=
  ⟨hs.hasKey_of_saturated ht hsat', ht.hasKey_of_saturated hs hsat⟩

variable (hb : Drainable b)
include hb

lemma pendingCalls_perm_of_saturated :
    s.db.pendingCalls.rows.Perm t.db.pendingCalls.rows := by
  have hsub : ∀ {s t : Traced}, DrainInv b s → DrainInv b t → Saturated s.db →
      s.db.pendingCalls.rows ⊆ t.db.pendingCalls.rows := by
    intro s t hs ht hsat p hp
    obtain ⟨hpb, -⟩ := (hs.pending p).mp hp
    refine (ht.pending p).mpr ⟨hpb, fun g hg hid => (hs.linked hb).disjoint p hp ?_⟩
    exact ht.hasKey_of_saturated hs hsat (ht.hasKey_iff.mpr (Or.inr ⟨g, hg, hid⟩))
  exact (List.perm_ext_iff_of_nodup s.db.pendingCalls.nodup_rows
    t.db.pendingCalls.nodup_rows).mpr fun _ =>
      ⟨fun hp => hsub hs ht hsat hp, fun hp => hsub ht hs hsat' hp⟩

variable {r r' : NodeRow} (hr : r ∈ s.db.nodes.rows) (hr' : r' ∈ t.db.nodes.rows)
  {π : List UInt32} (hπ : s.db.HasPath r.nodeId π) (hπ' : t.db.HasPath r'.nodeId π)
include hr hr' hπ hπ'

lemma callCount_eq : r.callCount = r'.callCount := by
  obtain ⟨r₀, r₀', rfl, rfl, hcount, -⟩ := hs.exists_origin ht hb hr hr' hπ hπ'
  have hlen := (hs.calls_perm ht hb hsat hsat' (Or.inl rfl) hπ hπ').length_eq
  rw [List.length_map, List.length_map, ← List.countP_eq_length_filter,
    ← List.countP_eq_length_filter] at hlen
  simp only [NodeRow.nodeId_touchAll] at hlen
  rw [NodeRow.callCount_touchAll, NodeRow.callCount_touchAll, hcount, hlen]

lemma abnormalExitCount_eq : r.abnormalExitCount = r'.abnormalExitCount := by
  obtain ⟨r₀, r₀', rfl, rfl, -, hcount, -⟩ := hs.exists_origin ht hb hr hr' hπ hπ'
  have hcountP : ∀ (log : List Folded) (n : ℕ),
      (log.countP fun f => f.node = n ∧ f.call.abnormalExit) =
        ((log.filter (·.node = n)).map Folded.call).countP (·.abnormalExit) := by
    intro log n
    rw [List.countP_map, List.countP_filter]
    exact List.countP_congr fun f _ => by simp [and_comm]
  have hlen := (hs.calls_perm ht hb hsat hsat' (Or.inl rfl) hπ hπ').countP_eq (·.abnormalExit)
  rw [← hcountP, ← hcountP] at hlen
  simp only [NodeRow.nodeId_touchAll] at hlen
  rw [NodeRow.abnormalExitCount_touchAll, NodeRow.abnormalExitCount_touchAll, hcount, hlen]

lemma column_eq {col : Column} (hcol : col ∈ Column.all)
    (hfits : (col.get (b.rowOf r.nodeId)).FitsFrom (col.values s.log r.nodeId)) :
    col.get r = col.get r' := by
  have hperm : (col.added s.log r.nodeId).Perm (col.added t.log r'.nodeId) := by
    have := (hs.calls_perm ht hb hsat hsat' (Column.slot_of_mem_all hcol) hπ hπ').map col.value
    rwa [List.map_map, List.map_map] at this
  obtain ⟨r₀, r₀', rfl, rfl, -, -, hstart⟩ := hs.exists_origin ht hb hr hr' hπ hπ'
  simp only [NodeRow.nodeId_touchAll] at hfits hperm hstart
  rw [(hstart col).1, ← col.map_added] at hfits
  rw [col.get_touchAll, col.get_touchAll, ← (hstart col).2, hfits.addAll_eq_of_perm hperm]

end two

end DrainInv

/-! ### The drain is a rescan -/

/-- Every `resolve` step counts one resolved row. -/
lemma pendingResolved_of_run {s t : Traced} {es : List Event} (hrun : Run Step s es t)
    (hes : ∀ e ∈ es, e.IsResolve) (o : AggregateOutcome) :
    (es.foldl AggregateOutcome.record o).pendingResolved + s.log.length =
      o.pendingResolved + t.log.length := by
  induction hrun generalizing o with
  | nil => rfl
  | @cons s u t e es hstep _ ih =>
    simp only [List.mem_cons, forall_eq_or_imp] at hes
    cases hstep with
    | skip _ | fold _ _ _ | park _ _ _ => exact absurd hes.1 id
    | @resolve p d n _ _ _ _ =>
      have hrest := ih hes.2 (o.record (.resolve p d n))
      have hone : (o.record (.resolve p d n)).pendingResolved = o.pendingResolved + 1 := by
        by_cases hinv : (p.toCall d).Inverted <;>
          simp [AggregateOutcome.record, AggregateOutcome.countInverted, hinv]
      have hlog : ((s.unpark p).fold n (p.toCall d)).log.length = s.log.length + 1 :=
        List.length_append
      rw [hone, hlog] at hrest
      rw [List.foldl_cons]
      omega

/-- Two runs that leave nothing resolvable differ in ids and orders only. -/
lemma DrainInv.sameDrain {b : TraceDb} {s t : Traced} {o os ot : AggregateOutcome}
    (hb : Drainable b) (hs : DrainInv b s) (ht : DrainInv b t) (hsat : Saturated s.db)
    (hsat' : Saturated t.db)
    (hos : os.pendingResolved = o.pendingResolved + s.log.length)
    (hot : ot.pendingResolved = o.pendingResolved + t.log.length) :
    SameDrain b s.log (s.db, os) (t.db, ot) where
  mapped := hs.mapped_iff ht hsat hsat'
  pendingCalls := hs.pendingCalls_perm_of_saturated ht hsat hsat' hb
  pendingResolved := by
    have hlen := hs.pendingCalls_perm.length_eq
    have hlen' := ht.pendingCalls_perm.length_eq
    have hpend := (hs.pendingCalls_perm_of_saturated ht hsat hsat' hb).length_eq
    rw [List.length_append, List.length_map] at hlen hlen'
    show os.pendingResolved = ot.pendingResolved
    omega
  rooted := ⟨hs.rooted, ht.rooted⟩
  paths := fun _ => ⟨fun ⟨_, hr, hπ⟩ => hs.exists_node ht hb hsat' hr hπ,
    fun ⟨_, hr, hπ⟩ => ht.exists_node hs hb hsat hr hπ⟩
  counts := fun _ hr _ hr' _ hπ hπ' => ⟨hs.depth_eq ht hb hr hr' hπ hπ',
    hs.callCount_eq ht hsat hsat' hb hr hr' hπ hπ',
    hs.abnormalExitCount_eq ht hsat hsat' hb hr hr' hπ hπ'⟩
  sums := fun _ hcol _ hr _ hr' _ hπ hπ' hfits =>
    hs.column_eq ht hsat hsat' hb hr hr' hπ hπ' hcol hfits

/-- The drain ends, folds each row at most once, and does what any rescan of the whole table
does. -/
theorem drainPending_eq_rescan [Engine] {known : List UInt32} {db : TraceDb}
    (o : AggregateOutcome) (hdb : Drainable db)
    (hknown : ∀ fn, fn ∈ known ↔ db.dict.HasKey fn) :
    ∃ log after o', Drains known db o log after o' ∧
      ∀ log₂ after₂ o₂, Run (RescanStep known) (db, o) log₂ (after₂, o₂) →
        (∀ p ∈ after₂.pendingCalls.rows, Resolvable after₂ p →
          ∃ f x, RescanStep known (after₂, o₂) f x ∧ PendingCall.ofCall f.call = p) ∧
        (Saturated after₂ → SameDrain db log (after, o') (after₂, o₂)) := by
  have hstart := DrainInv.start hdb []
  obtain ⟨es, items, u, es', items', t, hseed, hcascade, hres, hsat⟩ :=
    (hstart.linked hdb).seed_cascade_spec known o hknown
  have ht := hstart.of_run hdb hres.isResolve hres.run
  obtain ⟨log, hlog, hrescan⟩ := hstart.rescan_of_run (o := o) hdb hknown hres.isResolve hres.run
  have hlog : t.log = log := hlog
  have hcount := pendingResolved_of_run hres.run hres.isResolve o
  refine ⟨log, t.db, _, ⟨?_, ⟨_, _, _, hseed, fun fuel hfuel => cascade_of_le hcascade hfuel⟩,
    hlog ▸ ht.pendingCalls_perm, hlog ▸ hcount, hrescan, hsat⟩, fun log₂ after₂ o₂ hrun => ?_⟩
  · rw [drainPending]
    simp only [bind, Except.bind, hseed, hcascade, pure, Except.pure]
  · obtain ⟨es₂, t₂, hes₂, hrun₂, hlog₂, heq⟩ := hstart.run_of_rescan hdb hknown hrun
    obtain ⟨rfl, rfl⟩ := Prod.mk.inj heq
    have ht₂ := hstart.of_run hdb hes₂ hrun₂
    refine ⟨fun p hp hp' => ht₂.exists_rescanStep hdb hknown hp hp', fun hsat₂ => ?_⟩
    exact hlog ▸ ht.sameDrain hdb ht₂ hsat hsat₂ hcount (pendingResolved_of_run hrun₂ hes₂ o)

/-! ### Databases in which nothing is folded yet -/

/-- The function 7 is known, and the calls in `pending` are parked. -/
def parkedDb (pending : Table PendingCall.callId) : TraceDb :=
  { seedSyntheticRoot TraceDb.fresh with
    dict := ⟨[⟨0, "<root>", "", 0, 0⟩, ⟨7, "f", "", 0, 0⟩], by decide⟩
    pendingCalls := pending }

lemma mem_nodes_parkedDb {pending : Table PendingCall.callId} {r : NodeRow} :
    r ∈ (parkedDb pending).nodes.rows ↔ r = .syntheticRoot := by
  show r ∈ ((Table.empty : Table NodeRow.nodeId).insertOrIgnore .syntheticRoot).rows ↔ _
  rw [Table.rows_insertOrIgnore (Table.not_hasKey_empty _)]
  simp

lemma drainable_parkedDb {pending : Table PendingCall.callId}
    (h : ∀ p ∈ pending.rows, p.callId ≠ 0) : Drainable (parkedDb pending) where
  rooted :=
    { root := ⟨_, mem_nodes_parkedDb.mpr rfl, rfl, rfl⟩
      path := fun r hr => ⟨[], by rw [mem_nodes_parkedDb.mp hr]; exact .root⟩
      depth := fun r hr p _ hpar => by
        simp [mem_nodes_parkedDb.mp hr, NodeRow.syntheticRoot] at hpar
      unique := fun r hr r' hr' _ _ => by rw [mem_nodes_parkedDb.mp hr, mem_nodes_parkedDb.mp hr'] }
  nodes := by simp [parkedDb, seedSyntheticRoot, TraceDb.fresh]
  disjoint := fun _ _ => Table.not_hasKey_empty _
  mapped_ne_zero := by simp [parkedDb, seedSyntheticRoot, TraceDb.fresh]
  pending_ne_zero := h

/-- A call, its callee, a call that is its own parent and a call with an unknown parent. -/
theorem drainPending_eq_rescan_parked :
    letI := Engine.stored
    ∃ (db : TraceDb) (log : List Folded) (after : TraceDb) (o' : AggregateOutcome),
      db.pendingCalls.rows.length = 4 ∧ after.pendingCalls.rows.length = 2 ∧
      Drains (knownFnIds db) db {} log after o' ∧
      ∀ log₂ after₂ o₂, Run (RescanStep (knownFnIds db)) (db, {}) log₂ (after₂, o₂) →
        (∀ p ∈ after₂.pendingCalls.rows, Resolvable after₂ p →
          ∃ f x, RescanStep (knownFnIds db) (after₂, o₂) f x ∧ PendingCall.ofCall f.call = p) ∧
        (Saturated after₂ → SameDrain db log (after, o') (after₂, o₂)) := by
  let _ := Engine.stored
  let row (id parent : UInt32) : PendingCall := ⟨id, parent, 7, 0, 3, 0, 0, 0, 0, false⟩
  let pending : Table PendingCall.callId := ⟨[row 2 1, row 1 0, row 3 3, row 4 9], by decide⟩
  obtain ⟨log, after, o', hdrains, hsame⟩ := drainPending_eq_rescan {}
    (drainable_parkedDb (show ∀ p ∈ pending.rows, p.callId ≠ 0 by decide))
    (fun _ => mem_knownFnIds)
  refine ⟨parkedDb pending, log, after, o', rfl, ?_, hdrains, hsame⟩
  have hlen : (drainPending (knownFnIds (parkedDb pending)) (parkedDb pending) {}).toOption.map
      (·.1.pendingCalls.rows.length) = some 2 := by decide +kernel
  rw [hdrains.result] at hlen
  exact Option.some.inj hlen

lemma hasPath_singleton {db : TraceDb} {r : NodeRow} (hr : r ∈ db.nodes.rows)
    (hp : r.parentNodeId = some syntheticRootNodeId) : db.HasPath r.nodeId [r.fnId] :=
  .child (π := []) (by rw [up_of_mem hr, hp, Option.map_some]) .root

/-- Three calls that add the largest number, 1 and -5 to one node. The drain leaves 64 bits with the
second, a rescan that takes the third before it does not. -/
theorem not_sameTree :
    letI := Engine.stored
    ∃ (db after after₂ : TraceDb) (o' o₂ : AggregateOutcome) (log₂ : List Folded),
      Drainable db ∧ drainPending (knownFnIds db) db {} = .ok (after, o') ∧
      Run (RescanStep (knownFnIds db)) (db, {}) log₂ (after₂, o₂) ∧ Saturated after₂ ∧
      ∃ r ∈ after.nodes.rows, ∃ r' ∈ after₂.nodes.rows,
        after.HasPath r.nodeId [7] ∧ after₂.HasPath r'.nodeId [7] ∧
          r.totalMemDeltaBytes ≠ r'.totalMemDeltaBytes := by
  let _ := Engine.stored
  let row (id : UInt32) (memIn memOut : Int64) : PendingCall :=
    ⟨id, 0, 7, 0, 0, 0, 0, memIn, memOut, false⟩
  let a := row 1 0 Int64.maxValue
  let b := row 2 0 1
  let c := row 3 5 0
  let pending : Table PendingCall.callId := ⟨[a, b, c], by decide⟩
  let s : Traced := ⟨parkedDb pending, [], []⟩
  let s₁ := (s.unpark a).fold 1 (a.toCall 1)
  let s₂ := (s₁.unpark c).fold 1 (c.toCall 1)
  let s₃ := (s₂.unpark b).fold 1 (b.toCall 1)
  have hdb : Drainable (parkedDb pending) :=
    drainable_parkedDb (show ∀ p ∈ pending.rows, p.callId ≠ 0 by decide)
  have hstep : ∀ (t : Traced) (p : PendingCall), p ∈ t.db.pendingCalls.rows →
      t.db.dict.HasKey p.fnId → p.parentCallId = 0 →
      (∃ r ∈ t.db.nodes.rows, r.nodeId = 1 ∧ 1 = r.depth + 1) →
      Step t (.resolve p 1 1) ((t.unpark p).fold 1 (p.toCall 1)) :=
    fun t p hp hfn h0 hroot => .resolve hp hfn (Or.inl ⟨h0, rfl⟩) (Or.inl hroot)
  have hrun : Run Step s [.resolve a 1 1, .resolve c 1 1, .resolve b 1 1] s₃ :=
    .cons (hstep s a (by decide +kernel) (by decide +kernel) rfl (by decide +kernel))
      (.cons (hstep s₁ c (by decide +kernel) (by decide +kernel) rfl (by decide +kernel))
        (.single (hstep s₂ b (by decide +kernel) (by decide +kernel) rfl (by decide +kernel))))
  obtain ⟨log₂, -, hrescan⟩ := (DrainInv.start hdb []).rescan_of_run (o := {}) hdb
    (fun _ => mem_knownFnIds) (by simp [Event.IsResolve]) hrun
  have hempty : s₃.db.pendingCalls.rows = [] := by decide +kernel
  -- the node of the three calls, with the number that it holds
  let view (db : TraceDb) := db.nodes.rows.map fun r =>
    (r.parentNodeId, r.fnId, r.totalMemDeltaBytes.toInt?)
  have hdrain : (drainPending (knownFnIds (parkedDb pending)) (parkedDb pending) {}).toOption.map
      (view ·.1) = some [(none, 0, some 0), (some 1, 7, none)] := by decide +kernel
  have hview : view s₃.db = [(none, 0, some 0), (some 1, 7, some (2 ^ 63 - 5))] := by
    decide +kernel
  cases hafter : drainPending (knownFnIds (parkedDb pending)) (parkedDb pending) {} with
  | error e =>
    rw [hafter] at hdrain
    cases hdrain
  | ok x =>
    rw [hafter] at hdrain
    have hdrain : view x.1 = _ := Option.some.inj hdrain
    obtain ⟨r, hr, heq⟩ : ∃ r ∈ x.1.nodes.rows,
        (r.parentNodeId, r.fnId, r.totalMemDeltaBytes.toInt?) = (some 1, 7, none) :=
      List.mem_map.mp (show _ ∈ view x.1 by rw [hdrain]; simp)
    obtain ⟨r', hr', heq'⟩ : ∃ r ∈ s₃.db.nodes.rows,
        (r.parentNodeId, r.fnId, r.totalMemDeltaBytes.toInt?) = (some 1, 7, some (2 ^ 63 - 5)) :=
      List.mem_map.mp (show _ ∈ view s₃.db by rw [hview]; simp)
    simp only [Prod.mk.injEq] at heq heq'
    obtain ⟨hp, hfn, hcell⟩ := heq
    obtain ⟨hp', hfn', hcell'⟩ := heq'
    refine ⟨_, x.1, s₃.db, x.2, _, log₂, hdb, hafter, hrescan, ?_, r, hr, r', hr',
      hfn ▸ hasPath_singleton hr hp, hfn' ▸ hasPath_singleton hr' hp', fun heq => ?_⟩
    · intro p hp
      simp [hempty] at hp
    · rw [heq, hcell'] at hcell
      cases hcell

end PhpTreeViz
