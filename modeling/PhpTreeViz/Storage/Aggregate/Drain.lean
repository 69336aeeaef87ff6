import PhpTreeViz.Storage.Aggregate.Steps

/-!
# The drain leaves nothing resolvable

The drain is a run of `resolve` steps. Its worklist keeps the invariant `Frontier`: the parent of
every pending row that could be resolved is still on the worklist. The fuel of the cascade bounds
the worklist together with the pending rows, so the worklist is empty when the cascade returns, and
no pending row can be resolved any more.
-/

namespace PhpTreeViz

open Core

/-- A pending row whose function and whose parent are both known. -/
def Resolvable (db : TraceDb) (p : PendingCall) : Prop :=
  db.dict.HasKey p.fnId ∧ (p.parentCallId = 0 ∨ db.callToNode.HasKey p.parentCallId)

/-- No pending row can be resolved. -/
def Saturated (db : TraceDb) : Prop := ∀ p ∈ db.pendingCalls.rows, ¬ Resolvable db p

def Event.IsResolve : Event → Prop
  | .resolve _ _ _ => True
  | _              => False

/-! ### What no step takes back -/

/-- `t` has everything of `s` that a later fold may rely on. -/
structure Grows (s t : Traced) : Prop where
  dict : t.db.dict = s.db.dict
  log : s.log ⊆ t.log
  callToNode : s.db.callToNode.rows ⊆ t.db.callToNode.rows
  depth : ∀ r ∈ s.db.nodes.rows, ∃ r' ∈ t.db.nodes.rows, r'.nodeId = r.nodeId ∧ r'.depth = r.depth

namespace Grows

variable {s t u : Traced}

lemma of_eq (hdict : t.db.dict = s.db.dict) (hlog : t.log = s.log)
    (hmap : t.db.callToNode = s.db.callToNode) (hnodes : t.db.nodes = s.db.nodes) : Grows s t where
  dict := hdict
  log := by rw [hlog]; exact fun _ h => h
  callToNode := by rw [hmap]; exact fun _ h => h
  depth := by rw [hnodes]; exact fun r hr => ⟨r, hr, rfl, rfl⟩

lemma refl (s : Traced) : Grows s s := of_eq rfl rfl rfl rfl

lemma trans (h : Grows s t) (h' : Grows t u) : Grows s u where
  dict := h'.dict.trans h.dict
  log := fun _ hf => h'.log (h.log hf)
  callToNode := fun _ hr => h'.callToNode (h.callToNode hr)
  depth := by
    intro r hr
    obtain ⟨r', hr', hid, hd⟩ := h.depth r hr
    obtain ⟨r'', hr'', hid', hd'⟩ := h'.depth r' hr'
    exact ⟨r'', hr'', hid'.trans hid, hd'.trans hd⟩

lemma fold (s : Traced) (p : ℕ) (c : Call) : Grows s (s.fold p c) where
  dict := rfl
  log := fun _ hf => List.mem_append_left _ hf
  callToNode := fun _ hr => Table.mem_insertOrIgnore.mpr (Or.inl hr)
  depth := fun r hr =>
    ⟨_, mem_foldNodes.mpr ⟨r, mem_ensureNode.mpr (Or.inl hr), rfl⟩, by simp, by simp⟩

lemma hasKey (h : Grows s t) {id : UInt32} (hk : s.db.callToNode.HasKey id) :
    t.db.callToNode.HasKey id := by
  obtain ⟨r, hr, rfl⟩ := hk
  exact ⟨r, h.callToNode hr, rfl⟩

lemma parentAt (h : Grows s t) {parent : UInt32} {n : ℕ} (hp : ParentAt s.db parent n) :
    ParentAt t.db parent n :=
  hp.imp_right fun hmem => h.callToNode hmem

end Grows

lemma Step.grows {s t : Traced} {e : Event} (hstep : Step s e t) : Grows s t := by
  cases hstep with
  | skip _ => exact Grows.refl s
  | @fold c n _ _ _ =>
    have hpush : Grows s (s.push c) := Grows.of_eq rfl rfl rfl rfl
    exact hpush.trans (Grows.fold (s.push c) n c)
  | park _ _ _ => exact Grows.of_eq rfl rfl rfl rfl
  | @resolve p depth n _ _ _ _ =>
    have hunpark : Grows s (s.unpark p) := Grows.of_eq rfl rfl rfl rfl
    exact hunpark.trans (Grows.fold (s.unpark p) n (p.toCall depth))

lemma grows_of_run {s t : Traced} {es : List Event} (h : Run Step s es t) : Grows s t := by
  induction h with
  | nil s => exact Grows.refl s
  | cons hstep _ ih => exact hstep.grows.trans ih

lemma wellFormed_of_run {s t : Traced} {es : List Event} (h : Run Step s es t)
    (hs : WellFormed s) : WellFormed t := by
  induction h with
  | nil => exact hs
  | cons hstep _ ih => exact ih (hstep.wellFormed hs)

/-! ### What the drain relies on -/

/-- Every place that a call may be folded below exists, and no pending call has been folded. -/
structure Linked (s : Traced) : Prop where
  root : s.db.nodes.HasKey syntheticRootNodeId
  nodes : ∀ m ∈ s.db.callToNode.rows, s.db.nodes.HasKey m.nodeId
  logged : ∀ f ∈ s.log, f.row ∈ s.db.callToNode.rows
  disjoint : ∀ p ∈ s.db.pendingCalls.rows, ¬ s.db.callToNode.HasKey p.callId

lemma WellFormed.linked {s : Traced} (h : WellFormed s) : Linked s where
  root := h.tree.hasKey_root
  nodes := by
    intro m hm
    rw [h.mapped] at hm
    obtain ⟨f, hf, rfl⟩ := List.mem_map.mp hm
    exact h.tree.hasKey_node hf
  logged := by
    rw [h.mapped]
    exact fun f hf => List.mem_map_of_mem hf
  disjoint := h.disjoint

namespace Linked

variable {s : Traced}

lemma hasKey_parent (h : Linked s) {parent : UInt32} {n : ℕ} (hp : ParentAt s.db parent n) :
    s.db.nodes.HasKey n := by
  rcases hp with ⟨-, rfl⟩ | hmem
  · exact h.root
  · exact h.nodes _ hmem

lemma fold (h : Linked s) (p : ℕ) {c : Call} (hnew : ¬ CallIdAlreadyKnown s.db c.callId) :
    Linked (s.fold p c) := by
  have hkey : ¬ s.db.callToNode.HasKey (foldOf s.db.nodes p c).row.callId := fun hk =>
    hnew (Or.inl hk)
  refine ⟨hasKey_foldNodes_of h.root, fun m hm => ?_,
    Traced.forall_mem_log_fold (fun f hf => ?_) ?_, fun q hq hk => ?_⟩
  · rcases Table.mem_insertOrIgnore.mp hm with hm | ⟨rfl, -⟩
    · exact hasKey_foldNodes_of (h.nodes m hm)
    · obtain ⟨r, hr, hid, -⟩ := exists_foldTarget s.db.nodes p c
      exact ⟨_, mem_foldNodes.mpr ⟨r, hr, rfl⟩, (NodeRow.nodeId_touch _ _).trans hid⟩
  · exact Table.mem_insertOrIgnore.mpr (Or.inl (h.logged f hf))
  · exact Table.mem_insertOrIgnore.mpr (Or.inr ⟨rfl, hkey⟩)
  · rcases Table.hasKey_insertOrIgnore.mp hk with hk | hk
    · exact h.disjoint q hq hk
    · exact hnew (Or.inr ⟨q, hq, hk⟩)

end Linked

lemma Step.linked {s t : Traced} {e : Event} (hstep : Step s e t) (h : Linked s) : Linked t := by
  cases hstep with
  | skip _ => exact h
  | @fold c n hnew _ _ =>
    have hpush : Linked (s.push c) := ⟨h.root, h.nodes, h.logged, h.disjoint⟩
    exact hpush.fold n hnew
  | @park c fnKnown hnew _ _ =>
    refine ⟨h.root, h.nodes, h.logged, fun q hq => ?_⟩
    rcases Table.mem_insertOrIgnore.mp hq with hq | ⟨rfl, -⟩
    · exact h.disjoint q hq
    · exact fun hk => hnew (Or.inl hk)
  | @resolve p depth n hmem _ _ _ =>
    have hunpark : Linked (s.unpark p) :=
      ⟨h.root, h.nodes, h.logged, fun q hq => h.disjoint q (Table.mem_erase.mp hq).1⟩
    refine hunpark.fold n ?_
    rintro (hk | ⟨q, hq, hid⟩)
    · exact h.disjoint p hmem hk
    · exact (Table.mem_erase.mp hq).2 hid

lemma linked_of_run {s t : Traced} {es : List Event} (h : Run Step s es t) (hs : Linked s) :
    Linked t := by
  induction h with
  | nil => exact hs
  | cons hstep _ ih => exact ih (hstep.linked hs)

/-! ### A list of resolved rows -/

/-- The steps `es` resolved the calls on `items`. -/
structure Resolved (s : Traced) (es : List Event) (items : List WorkItem) (t : Traced) : Prop where
  run : Run Step s es t
  isResolve : ∀ e ∈ es, e.IsResolve
  inLog : ∀ i ∈ items, ∃ f ∈ t.log,
    f.call.callId = i.callId ∧ f.node = i.nodeId ∧ f.call.depth = i.depth
  mapped : ∀ id, t.db.callToNode.HasKey id →
    s.db.callToNode.HasKey id ∨ ∃ i ∈ items, i.callId = id
  pending : t.db.pendingCalls.rows ⊆ s.db.pendingCalls.rows
  length : items.length + t.db.pendingCalls.rows.length = s.db.pendingCalls.rows.length

namespace Resolved

variable {s t u : Traced} {es es' : List Event} {items items' : List WorkItem}

lemma nil (s : Traced) : Resolved s [] [] s where
  run := .nil s
  isResolve := by simp
  inLog := by simp
  mapped := fun _ h => Or.inl h
  pending := fun _ h => h
  length := by simp

lemma append (h : Resolved s es items t) (h' : Resolved t es' items' u) :
    Resolved s (es ++ es') (items ++ items') u where
  run := h.run.append h'.run
  isResolve := by
    simp only [List.mem_append]
    rintro e (he | he)
    · exact h.isResolve e he
    · exact h'.isResolve e he
  inLog := by
    simp only [List.mem_append]
    rintro i (hi | hi)
    · obtain ⟨f, hf, hi'⟩ := h.inLog i hi
      exact ⟨f, (grows_of_run h'.run).log hf, hi'⟩
    · exact h'.inLog i hi
  mapped := by
    intro id hid
    simp only [List.mem_append, or_and_right, exists_or]
    rcases h'.mapped id hid with hid | hid
    · exact (h.mapped id hid).imp_right Or.inl
    · exact Or.inr (Or.inr hid)
  pending := fun _ hp => h.pending (h'.pending hp)
  length := by
    rw [List.length_append, Nat.add_assoc, h'.length, h.length]

/-- One resolved row. -/
lemma single {p : PendingCall} {n : ℕ} {d : UInt32}
    (hp : p ∈ s.db.pendingCalls.rows) (hfn : s.db.dict.HasKey p.fnId)
    (hpar : ParentAt s.db p.parentCallId n) (hd : s.DepthBelow p.parentCallId n d) :
    Resolved s [.resolve p d n] [⟨p.callId, foldTarget s.db.nodes n p.fnId, d⟩]
      ((s.unpark p).fold n (p.toCall d)) where
  run := .single (.resolve hp hfn hpar hd)
  isResolve := by simp [Event.IsResolve]
  inLog := by
    intro i hi
    rw [List.mem_singleton.mp hi]
    exact ⟨_, List.mem_append_right _ (List.mem_singleton.mpr rfl), rfl, rfl, rfl⟩
  mapped := by
    intro id hid
    rcases Table.hasKey_insertOrIgnore.mp hid with hid | rfl
    · exact Or.inl hid
    · exact Or.inr ⟨_, List.mem_singleton.mpr rfl, rfl⟩
  pending := fun _ hq => (Table.mem_erase.mp hq).1
  length := by
    rw [List.length_singleton, Nat.add_comm]
    exact Table.length_erase hp

end Resolved

lemma resolvePendingRow_eq {s : Traced} (h : Linked s) (row : PendingRow)
    (hfn : s.db.dict.HasKey row.fnId) (hpar : ParentAt s.db row.parentCallId row.parentNodeId)
    (d : UInt32) (o : AggregateOutcome) :
    resolvePendingRow s.db row d o = .ok (foldTarget s.db.nodes row.parentNodeId row.fnId,
      ((s.unpark row.toPendingCall).fold row.parentNodeId (row.toCall d)).db,
      o.record (.resolve row.toPendingCall d row.parentNodeId)) := by
  rw [resolvePendingRow, foldCallIntoNodes_eq (h.hasKey_parent hpar) (c := row.toCall d) hfn]
  rfl

/-- The loop over the rows of a drain query resolves those with a known function. -/
theorem resolveRows_spec {known : List UInt32}
    (depthOf : TraceDb → PendingRow → Except StorageError UInt32) (rows : List PendingRow)
    {s : Traced} (o : AggregateOutcome) (h : Linked s)
    (hknown : ∀ fn, fn ∈ known ↔ s.db.dict.HasKey fn)
    (hnodup : (rows.map (·.callId)).Nodup)
    (hpend : ∀ row ∈ rows, row.toPendingCall ∈ s.db.pendingCalls.rows)
    (hpar : ∀ row ∈ rows, ParentAt s.db row.parentCallId row.parentNodeId)
    (hdepth : ∀ row ∈ rows, ∀ t, Grows s t → ∃ d, depthOf t.db row = .ok d ∧
      t.DepthBelow row.parentCallId row.parentNodeId d) :
    ∃ es items t, resolveRows known depthOf rows s.db o =
        .ok (items, t.db, es.foldl AggregateOutcome.record o) ∧
      Resolved s es items t ∧
      ∀ row ∈ rows, row.fnId ∈ known → row.toPendingCall ∉ t.db.pendingCalls.rows := by
  induction rows generalizing s o with
  | nil => exact ⟨[], [], s, rfl, Resolved.nil s, by simp⟩
  | cons row rows ih =>
    simp only [List.mem_cons, forall_eq_or_imp] at hpend hpar hdepth ⊢
    rw [List.map_cons, List.nodup_cons] at hnodup
    by_cases hfn : row.fnId ∈ known
    · obtain ⟨d, hd, hbelow⟩ := hdepth.1 s (Grows.refl s)
      have hfn' : s.db.dict.HasKey row.fnId := (hknown _).mp hfn
      have hone := Resolved.single hpend.1 hfn' hpar.1 hbelow
      have hgrows := grows_of_run hone.run
      obtain ⟨es, items, t, heq, hres, hgone⟩ :=
        ih (s := (s.unpark row.toPendingCall).fold row.parentNodeId (row.toCall d))
          (o.record (.resolve row.toPendingCall d row.parentNodeId))
          (linked_of_run hone.run h) (fun fn => by rw [hknown, ← hgrows.dict]) hnodup.2
          (fun r hr => Table.mem_erase.mpr ⟨hpend.2 r hr, fun he =>
            hnodup.1 (List.mem_map.mpr ⟨r, hr, he⟩)⟩)
          (fun r hr => hgrows.parentAt (hpar.2 r hr))
          (fun r hr t ht => hdepth.2 r hr t (hgrows.trans ht))
      refine ⟨_, _, t, ?_, hone.append hres, fun _ hmem => ?_, hgone⟩
      · rw [resolveRows, if_pos hfn, hd]
        simp only [bind, Except.bind, resolvePendingRow_eq h row hfn' hpar.1, heq]
        rfl
      · exact (Table.mem_erase.mp (hres.pending hmem)).2 rfl
    · obtain ⟨es, items, t, heq, hres, hgone⟩ :=
        ih o h hknown hnodup.2 hpend.2 hpar.2 hdepth.2
      refine ⟨es, items, t, ?_, hres, fun hk => absurd hk hfn, hgone⟩
      rw [resolveRows, if_neg hfn, heq]

/-! ### The cascade -/

/-- The parents of the resolvable rows are on the worklist, which tells where they are. -/
structure Frontier (s : Traced) (worklist : List WorkItem) : Prop where
  inLog : ∀ i ∈ worklist, ∃ f ∈ s.log,
    f.call.callId = i.callId ∧ f.node = i.nodeId ∧ f.call.depth = i.depth
  covers : ∀ p ∈ s.db.pendingCalls.rows, Resolvable s.db p →
    ∃ i ∈ worklist, i.callId = p.parentCallId

lemma Frontier.saturated {s : Traced} (h : Frontier s []) : Saturated s.db := by
  intro p hp hres
  simpa using h.covers p hp hres

lemma mem_drainChildren [Engine] {db : TraceDb} {id : UInt32} {n : ℕ} {row : PendingRow} :
    row ∈ drainChildren db id n ↔ row.toPendingCall ∈ db.pendingCalls.rows ∧
      row.parentCallId = id ∧ row.parentNodeId = n := by
  simp only [drainChildren, List.mem_map, List.mem_filter, mem_scan, decide_eq_true_eq]
  constructor
  · rintro ⟨p, ⟨hp, hid⟩, rfl⟩
    exact ⟨hp, hid, rfl⟩
  · rintro ⟨hp, hid, rfl⟩
    exact ⟨row.toPendingCall, ⟨hp, hid⟩, rfl⟩

lemma nodup_scan_pending [Engine] (db : TraceDb) :
    ((scan db.pendingCalls.rows).map (·.callId)).Nodup :=
  ((ScanOrder.scan_perm db.pendingCalls.rows).map _).nodup_iff.mpr db.pendingCalls.nodup

lemma nodup_drainChildren [Engine] (db : TraceDb) (id : UInt32) (n : ℕ) :
    ((drainChildren db id n).map (·.callId)).Nodup := by
  rw [drainChildren, List.map_map]
  exact (nodup_scan_pending db).sublist (List.filter_sublist.map _)

/-- Popping a call and pushing its resolved children leaves the parents of the resolvable rows on
the worklist. -/
lemma Frontier.pop [Engine] {known : List UInt32} {s t : Traced} {es : List Event}
    {item : WorkItem} {worklist items : List WorkItem} (h : Frontier s (item :: worklist))
    (hknown : ∀ fn, fn ∈ known ↔ s.db.dict.HasKey fn) (hres : Resolved s es items t)
    (hgone : ∀ row ∈ drainChildren s.db item.callId item.nodeId, row.fnId ∈ known →
      row.toPendingCall ∉ t.db.pendingCalls.rows) : Frontier t (worklist ++ items) := by
  have hgrows := grows_of_run hres.run
  constructor
  · intro i hi
    rcases List.mem_append.mp hi with hi | hi
    · obtain ⟨g, hg, hi'⟩ := h.inLog i (List.mem_cons_of_mem _ hi)
      exact ⟨g, hgrows.log hg, hi'⟩
    · exact hres.inLog i hi
  · intro p hp hp'
    -- a row whose parent was known before and is not the popped call is still covered
    have hold : Resolvable s.db p → ∃ i ∈ worklist ++ items, i.callId = p.parentCallId := by
      intro hr
      obtain ⟨i, hi, hip⟩ := h.covers p (hres.pending hp) hr
      rcases List.mem_cons.mp hi with rfl | hi
      · have hrow : (⟨p, i.nodeId⟩ : PendingRow) ∈ drainChildren s.db i.callId i.nodeId :=
          mem_drainChildren.mpr ⟨hres.pending hp, hip.symm, rfl⟩
        exact absurd hp (hgone _ hrow ((hknown _).mpr hr.1))
      · exact ⟨i, List.mem_append_left _ hi, hip⟩
    have hfn : s.db.dict.HasKey p.fnId := hgrows.dict ▸ hp'.1
    rcases hp'.2 with h0 | hk
    · exact hold ⟨hfn, Or.inl h0⟩
    · rcases hres.mapped _ hk with hk | ⟨i, hi, hip⟩
      · exact hold ⟨hfn, Or.inr hk⟩
      · exact ⟨i, List.mem_append_right _ hi, hip⟩

theorem cascade_spec [Engine] {known : List UInt32} (fuel : ℕ) {worklist : List WorkItem}
    {s : Traced} (o : AggregateOutcome) (h : Linked s)
    (hknown : ∀ fn, fn ∈ known ↔ s.db.dict.HasKey fn) (hfront : Frontier s worklist)
    (hfuel : worklist.length + s.db.pendingCalls.rows.length ≤ fuel) :
    ∃ es items t, cascade known fuel worklist s.db o =
        .ok ([], t.db, es.foldl AggregateOutcome.record o) ∧
      Resolved s es items t ∧ Saturated t.db := by
  induction fuel generalizing worklist s o with
  | zero =>
    obtain rfl : worklist = [] := List.length_eq_zero_iff.mp (by omega)
    exact ⟨[], [], s, rfl, Resolved.nil s, hfront.saturated⟩
  | succ fuel ih =>
    cases worklist with
    | nil => exact ⟨[], [], s, rfl, Resolved.nil s, hfront.saturated⟩
    | cons item worklist =>
      obtain ⟨f, hf, hid, hnode, hdep⟩ := hfront.inLog item List.mem_cons_self
      have hmapped : (⟨item.callId, item.nodeId⟩ : CallToNodeRow) ∈ s.db.callToNode.rows := by
        rw [← hid, ← hnode]
        exact h.logged f hf
      obtain ⟨es, items, t, heq, hres, hgone⟩ := resolveRows_spec
        (fun _ _ => .ok (item.depth + 1))
        (drainChildren s.db item.callId item.nodeId) o h hknown (nodup_drainChildren _ _ _)
        (fun row hrow => (mem_drainChildren.mp hrow).1)
        (fun row hrow => by
          obtain ⟨-, hparent, hn⟩ := mem_drainChildren.mp hrow
          rw [hparent, hn]
          exact Or.inr hmapped)
        (fun row hrow t ht => by
          obtain ⟨-, hparent, hn⟩ := mem_drainChildren.mp hrow
          rw [hparent, hn]
          exact ⟨_, rfl, Or.inr ⟨f, ht.log hf, hid, hnode, by rw [hdep]⟩⟩)
      have hlen := hres.length
      simp only [List.length_cons] at hfuel
      obtain ⟨es', items', u, heq', hres', hsat⟩ :=
        ih (es.foldl AggregateOutcome.record o)
          (linked_of_run hres.run h) (fun fn => by rw [hknown, ← (grows_of_run hres.run).dict])
          (hfront.pop hknown hres hgone) (by rw [List.length_append]; omega)
      refine ⟨es ++ es', items ++ items', u, ?_, hres.append hres', hsat⟩
      rw [cascade]
      simp only [bind, Except.bind, heq, heq', List.foldl_append]

/-! ### The whole drain -/

lemma drainParent_eq_some {db : TraceDb} {parent : UInt32} {n : ℕ}
    (h : drainParent db parent = some n) : ParentAt db parent n := by
  rw [drainParent] at h
  cases hf : db.callToNode.find? parent with
  | some row =>
    obtain ⟨hrow, hid⟩ := Table.find?_eq_some_iff.mp hf
    obtain rfl : row.nodeId = n := by simpa [hf] using h
    right
    rw [← hid]
    exact hrow
  | none =>
    have h0 : parent = 0 ∧ syntheticRootNodeId = n := by simpa [hf] using h
    exact Or.inl ⟨h0.1, h0.2.symm⟩

lemma isSome_drainParent {db : TraceDb} {parent : UInt32}
    (h : parent = 0 ∨ db.callToNode.HasKey parent) : ∃ n, drainParent db parent = some n := by
  rw [drainParent]
  cases hf : db.callToNode.find? parent with
  | some row => exact ⟨_, rfl⟩
  | none =>
    have h0 : parent = 0 := h.resolve_right (Table.find?_eq_none_iff.mp hf)
    exact ⟨_, if_pos h0⟩

lemma mem_drainResolvable [Engine] {db : TraceDb} {row : PendingRow} :
    row ∈ drainResolvable db ↔ row.toPendingCall ∈ db.pendingCalls.rows ∧
      drainParent db row.parentCallId = some row.parentNodeId := by
  simp only [drainResolvable, List.mem_filterMap, mem_scan, Option.map_eq_some_iff]
  constructor
  · rintro ⟨p, hp, n, hn, rfl⟩
    exact ⟨hp, hn⟩
  · rintro ⟨hp, hn⟩
    exact ⟨row.toPendingCall, hp, row.parentNodeId, hn, rfl⟩

lemma nodup_drainResolvable [Engine] (db : TraceDb) :
    ((drainResolvable db).map (·.callId)).Nodup := by
  have hsub : ((drainResolvable db).map (·.callId)).Sublist
      ((scan db.pendingCalls.rows).map (·.callId)) := by
    rw [drainResolvable]
    induction scan db.pendingCalls.rows with
    | nil => simp
    | cons p ps ih =>
      cases hn : drainParent db p.parentCallId with
      | none => simpa [List.filterMap_cons, hn] using ih.cons p.callId
      | some n => simpa [List.filterMap_cons, hn] using ih
  exact (nodup_scan_pending db).sublist hsub

lemma seedDepth_spec {s : Traced} (h : Linked s) {row : PendingRow}
    (hpar : ParentAt s.db row.parentCallId row.parentNodeId) {t : Traced} (hgrows : Grows s t) :
    ∃ d, seedDepth t.db row = .ok d ∧ t.DepthBelow row.parentCallId row.parentNodeId d := by
  obtain ⟨r, hr, hid⟩ := h.hasKey_parent hpar
  obtain ⟨r', hr', hid', -⟩ := hgrows.depth r hr
  have hfind : t.db.nodes.find? row.parentNodeId = some r' :=
    Table.find?_eq_some_iff.mpr ⟨hr', hid'.trans hid⟩
  exact ⟨r'.depth + 1, by simp [seedDepth, hfind], Or.inl ⟨r', hr', hid'.trans hid, rfl⟩⟩

/-- The seed pass and the cascade always succeed, and the cascade empties its worklist. Together
they are a run of `resolve` steps that leaves nothing resolvable. -/
theorem Linked.seed_cascade_spec [Engine] (known : List UInt32) {s : Traced}
    (o : AggregateOutcome) (h : Linked s) (hknown : ∀ fn, fn ∈ known ↔ s.db.dict.HasKey fn) :
    ∃ es items, ∃ u : Traced, ∃ es' items' t,
      resolveRows known seedDepth (drainResolvable s.db) s.db o =
        .ok (items, u.db, es.foldl AggregateOutcome.record o) ∧
      cascade known (items.length + u.db.pendingCalls.rows.length) items u.db
        (es.foldl AggregateOutcome.record o) =
        .ok ([], t.db, (es ++ es').foldl AggregateOutcome.record o) ∧
      Resolved s (es ++ es') (items ++ items') t ∧ Saturated t.db := by
  have hpar : ∀ row ∈ drainResolvable s.db, ParentAt s.db row.parentCallId row.parentNodeId :=
    fun row hrow => drainParent_eq_some (mem_drainResolvable.mp hrow).2
  obtain ⟨es, items, t, heq, hres, hgone⟩ := resolveRows_spec seedDepth
    (drainResolvable s.db) o h hknown (nodup_drainResolvable _)
    (fun row hrow => (mem_drainResolvable.mp hrow).1) hpar
    (fun row hrow _ ht => seedDepth_spec h (hpar row hrow) ht)
  have hgrows := grows_of_run hres.run
  have hfront : Frontier t items := by
    refine ⟨hres.inLog, fun p hp hp' => ?_⟩
    have hfn : s.db.dict.HasKey p.fnId := hgrows.dict ▸ hp'.1
    -- the seed query had every row whose parent was known before
    have hseeded : ¬ (p.parentCallId = 0 ∨ s.db.callToNode.HasKey p.parentCallId) := by
      intro hk
      obtain ⟨n, hn⟩ := isSome_drainParent hk
      exact hgone ⟨p, n⟩ (mem_drainResolvable.mpr ⟨hres.pending hp, hn⟩) ((hknown _).mpr hfn) hp
    rcases hp'.2 with h0 | hk
    · exact absurd (Or.inl h0) hseeded
    · exact (hres.mapped _ hk).resolve_left fun hk => hseeded (Or.inr hk)
  obtain ⟨es', items', u, heq', hres', hsat⟩ :=
    cascade_spec (items.length + t.db.pendingCalls.rows.length)
      (es.foldl AggregateOutcome.record o) (linked_of_run hres.run h)
      (fun fn => by rw [hknown, ← hgrows.dict]) hfront le_rfl
  exact ⟨es, items, t, es', items', u, heq, by rw [heq', List.foldl_append],
    hres.append hres', hsat⟩

/-- The drain always succeeds, is a run of `resolve` steps and leaves nothing resolvable. -/
theorem Linked.drainPending_spec [Engine] (known : List UInt32) {s : Traced}
    (o : AggregateOutcome) (h : Linked s) (hknown : ∀ fn, fn ∈ known ↔ s.db.dict.HasKey fn) :
    ∃ es items t, drainPending known s.db o = .ok (t.db, es.foldl AggregateOutcome.record o) ∧
      Resolved s es items t ∧ Saturated t.db := by
  obtain ⟨es, items, u, es', items', t, hseed, hcascade, hres, hsat⟩ :=
    h.seed_cascade_spec known o hknown
  refine ⟨es ++ es', items ++ items', t, ?_, hres, hsat⟩
  rw [drainPending]
  simp only [bind, Except.bind, hseed, hcascade, pure, Except.pure]

/-- More fuel than the cascade needs changes nothing. -/
lemma cascade_of_le [Engine] {known : List UInt32} {fuel fuel' : ℕ} {worklist : List WorkItem}
    {db : TraceDb} {o : AggregateOutcome} {x : TraceDb × AggregateOutcome}
    (h : cascade known fuel worklist db o = .ok ([], x)) (hle : fuel ≤ fuel') :
    cascade known fuel' worklist db o = .ok ([], x) := by
  induction fuel generalizing fuel' worklist db o with
  | zero =>
    obtain ⟨rfl, rfl⟩ := Prod.mk.inj (Except.ok.inj h)
    cases fuel' <;> rfl
  | succ fuel ih =>
    obtain ⟨fuel', rfl⟩ : ∃ k, fuel' = k + 1 := ⟨fuel' - 1, by omega⟩
    cases worklist with
    | nil => exact h
    | cons item worklist =>
      rw [cascade] at h ⊢
      cases hrows : resolveRows known (fun _ _ => .ok (item.depth + 1))
          (drainChildren db item.callId item.nodeId) db o with
      | error e => simp [hrows, bind, Except.bind] at h
      | ok r =>
        simp only [hrows, bind, Except.bind] at h ⊢
        exact ih h (by omega)

theorem drainPending_spec [Engine] (known : List UInt32) {s : Traced} (o : AggregateOutcome)
    (h : WellFormed s) (hknown : ∀ fn, fn ∈ known ↔ s.db.dict.HasKey fn) :
    ∃ es items t, drainPending known s.db o = .ok (t.db, es.foldl AggregateOutcome.record o) ∧
      Resolved s es items t ∧ Saturated t.db := h.linked.drainPending_spec known o hknown

end PhpTreeViz
