import PhpTreeViz.Storage.Aggregate.Drain

/-!
# Aggregating a batch

The in-batch loop handles every call of the batch with one step and the drain adds `resolve` steps,
so a batch is a run of `Step`. `newCalls` are the calls that it records: of the `call_id`s that no
table knows yet, the last occurrence in the batch.
-/

namespace PhpTreeViz

open Core

/-- The calls of a batch that are recorded, in wire order. -/
def newCalls (db : TraceDb) : List Call → List Call
  | []         => []
  | c :: calls =>
    let rest := newCalls db calls
    if CallIdAlreadyKnown db c.callId ∨ c.callId ∈ rest.map Call.callId then rest else c :: rest

section newCalls

variable {db : TraceDb} {calls : List Call}

lemma newCalls_sublist : (newCalls db calls).Sublist calls := by
  induction calls with
  | nil => exact List.Sublist.slnil
  | cons c calls ih =>
    rw [newCalls]
    split_ifs
    · exact ih.cons c
    · exact ih.cons_cons c

lemma nodup_newCalls : ((newCalls db calls).map Call.callId).Nodup := by
  induction calls with
  | nil => exact List.nodup_nil
  | cons c calls ih =>
    rw [newCalls]
    split_ifs with h
    · exact ih
    · rw [List.map_cons, List.nodup_cons]
      exact ⟨fun hmem => h (Or.inr hmem), ih⟩

lemma not_known_of_mem_newCalls {c : Call} (h : c ∈ newCalls db calls) :
    ¬ CallIdAlreadyKnown db c.callId := by
  induction calls with
  | nil => simp [newCalls] at h
  | cons d calls ih =>
    rw [newCalls] at h
    split_ifs at h with hd
    · exact ih h
    · rcases List.mem_cons.mp h with rfl | h
      · exact fun hk => hd (Or.inl hk)
      · exact ih h

/-- Every call of a batch is known before or recorded. -/
lemma known_or_mem_newCalls {c : Call} (h : c ∈ calls) :
    CallIdAlreadyKnown db c.callId ∨ c.callId ∈ (newCalls db calls).map Call.callId := by
  induction calls with
  | nil => simp at h
  | cons d calls ih =>
    rw [newCalls]
    rcases List.mem_cons.mp h with rfl | h
    · split_ifs with hd
      · exact hd
      · exact Or.inr (by simp)
    · refine (ih h).imp_right fun hmem => ?_
      split_ifs
      · exact hmem
      · exact List.mem_cons_of_mem _ hmem

lemma newCalls_eq_nil_iff :
    newCalls db calls = [] ↔ ∀ c ∈ calls, CallIdAlreadyKnown db c.callId := by
  constructor
  · intro h c hc
    exact (known_or_mem_newCalls hc).resolve_right (by simp [h])
  · intro h
    apply List.eq_nil_iff_forall_not_mem.mpr
    intro c hc
    exact not_known_of_mem_newCalls hc (h c (newCalls_sublist.subset hc))

/-- The recorded version of an unknown call is its last occurrence. -/
lemma find?_newCalls (id : UInt32) : (newCalls db calls).find? (·.callId = id) =
    if CallIdAlreadyKnown db id then none else calls.reverse.find? (·.callId = id) := by
  induction calls with
  | nil => simp [newCalls]
  | cons c calls ih =>
    rw [newCalls, List.reverse_cons, List.find?_append]
    by_cases hid : CallIdAlreadyKnown db id
    · rw [if_pos hid] at ih ⊢
      split_ifs with h
      · exact ih
      · have hne : c.callId ≠ id := fun he => h (Or.inl (he ▸ hid))
        rw [List.find?_cons_of_neg (by simpa using hne)]
        exact ih
    · rw [if_neg hid] at ih ⊢
      split_ifs with h
      · rw [ih]
        by_cases hc : c.callId = id
        · -- the id occurs again later in the batch
          have hmem := h.resolve_left (hc ▸ hid)
          obtain ⟨d, hd, hdid⟩ := List.mem_map.mp hmem
          have hsome : (calls.reverse.find? (·.callId = id)).isSome := by
            rw [← ih, List.find?_isSome]
            exact ⟨d, hd, by simp [hdid, hc]⟩
          rw [Option.or_of_isSome hsome]
        · simp [hc]
      · by_cases hc : c.callId = id
        · have hnone : (newCalls db calls).find? (·.callId = id) = none := by
            rw [List.find?_eq_none]
            intro d hd hdid
            exact h (Or.inr (List.mem_map.mpr ⟨d, hd, by simpa [hc] using hdid⟩))
          rw [List.find?_cons_of_pos (by simpa using hc), ← ih, hnone]
          simp [hc]
        · rw [List.find?_cons_of_neg (by simpa using hc), ih]
          simp [hc]

end newCalls

/-! ### Which calls a step records -/

/-- The call that an event records for the first time. -/
def Event.recorded : Event → List Call
  | .fold c _ | .park c _ => [c]
  | _                     => []

/-- The in-batch event of the call `c`. -/
def Event.Handles (c : Call) : Event → Prop
  | .skip c' | .fold c' _ | .park c' _ => c' = c
  | .resolve _ _ _                     => False

lemma Event.recorded_of_isResolve {e : Event} (h : e.IsResolve) : e.recorded = [] := by
  cases e <;> simp [IsResolve, recorded] at *

lemma Step.versions {s t : Traced} {e : Event} (hstep : Step s e t) :
    t.versions = e.recorded ++ s.versions := by
  cases hstep <;> rfl

/-- A step makes known what it records and forgets nothing. -/
lemma Step.known {s t : Traced} {e : Event} (hstep : Step s e t) (id : UInt32) :
    CallIdAlreadyKnown t.db id ↔
      CallIdAlreadyKnown s.db id ∨ id ∈ e.recorded.map Call.callId := by
  cases hstep with
  | skip _ => simp [Event.recorded]
  | @fold c n _ _ _ =>
    simp only [CallIdAlreadyKnown, Traced.fold, Traced.push, TraceDb.fold,
      Table.hasKey_insertOrIgnore, Event.recorded, List.map_singleton, List.mem_singleton,
      Folded.row, foldOf, or_right_comm]
  | @park c fnKnown _ _ _ =>
    simp only [CallIdAlreadyKnown, Traced.park, Traced.push, insertPendingCall,
      Table.hasKey_insertOrIgnore, Event.recorded, List.map_singleton, List.mem_singleton,
      PendingCall.ofCall, or_assoc]
  | @resolve p depth n hp _ _ _ =>
    simp only [CallIdAlreadyKnown, Traced.fold, Traced.unpark, TraceDb.fold,
      Table.hasKey_insertOrIgnore, Event.recorded, List.map_nil, List.not_mem_nil, or_false,
      Folded.row, foldOf, PendingCall.toCall]
    constructor
    · rintro ((hk | rfl) | ⟨q, hq, rfl⟩)
      · exact Or.inl hk
      · exact Or.inr ⟨p, hp, rfl⟩
      · exact Or.inr ⟨q, (Table.mem_erase.mp hq).1, rfl⟩
    · rintro (hk | ⟨q, hq, rfl⟩)
      · exact Or.inl (Or.inl hk)
      · by_cases hid : q.callId = p.callId
        · exact Or.inl (Or.inr hid)
        · exact Or.inr ⟨q, Table.mem_erase.mpr ⟨hq, hid⟩, rfl⟩

lemma known_of_run {s t : Traced} {es : List Event} (h : Run Step s es t) (id : UInt32) :
    CallIdAlreadyKnown t.db id ↔
      CallIdAlreadyKnown s.db id ∨ id ∈ (es.flatMap Event.recorded).map Call.callId := by
  induction h with
  | nil => simp
  | cons hstep _ ih =>
    rw [ih, hstep.known, or_assoc, List.flatMap_cons, List.map_append, List.mem_append]

/-! ### What resolving leaves alone -/

section isResolve

variable {s t : Traced} {es : List Event}

lemma versions_of_isResolve (h : Run Step s es t) (he : ∀ e ∈ es, e.IsResolve) :
    t.versions = s.versions := by
  induction h with
  | nil => rfl
  | cons hstep _ ih =>
    simp only [List.mem_cons, forall_eq_or_imp] at he
    rw [ih he.2, hstep.versions, Event.recorded_of_isResolve he.1, List.nil_append]

lemma known_of_isResolve (h : Run Step s es t) (he : ∀ e ∈ es, e.IsResolve) (id : UInt32) :
    CallIdAlreadyKnown t.db id ↔ CallIdAlreadyKnown s.db id := by
  have hnil : es.flatMap Event.recorded = [] :=
    List.flatMap_eq_nil_iff.mpr fun e hmem => Event.recorded_of_isResolve (he e hmem)
  rw [known_of_run h, hnil]
  simp

/-- Nothing is resolved from a state in which nothing can be. -/
lemma eq_nil_of_saturated (h : Run Step s es t) (he : ∀ e ∈ es, e.IsResolve)
    (hsat : Saturated s.db) : es = [] := by
  cases h with
  | nil => rfl
  | @cons _ u _ e es hstep _ =>
    cases hstep with
    | @resolve p depth n hp hfn hpar _ =>
      refine absurd ⟨hfn, ?_⟩ (hsat p hp)
      exact hpar.imp And.left fun hmem => ⟨_, hmem, rfl⟩
    | _ => exact (he _ List.mem_cons_self).elim

end isResolve

/-- Known calls are all skipped. -/
lemma skips_of_known {s t : Traced} {calls : List Call} {es : List Event}
    (hall : List.Forall₂ Event.Handles calls es) (h : Run Step s es t)
    (hknown : ∀ c ∈ calls, CallIdAlreadyKnown s.db c.callId) :
    es = calls.map Event.skip ∧ t = s := by
  induction hall with
  | nil => exact ⟨rfl, (Run.nil_iff.mp h).symm⟩
  | @cons c e calls es hc _ ih =>
    simp only [List.mem_cons, forall_eq_or_imp] at hknown
    obtain ⟨u, hstep, hrest⟩ := Run.cons_iff.mp h
    cases hstep with
    | @skip c' _ =>
      obtain rfl : c' = c := hc
      obtain ⟨rfl, rfl⟩ := ih hrest hknown.2
      exact ⟨rfl, rfl⟩
    | @fold c' n hnew _ _ =>
      obtain rfl : c' = c := hc
      exact absurd hknown.1 hnew
    | @park c' b hnew _ _ =>
      obtain rfl : c' = c := hc
      exact absurd hknown.1 hnew
    | resolve _ _ _ _ => exact hc.elim

/-! ### The in-batch loop -/

lemma resolveParent_eq_some {db : TraceDb} {parent : UInt32} {n : ℕ}
    (h : resolveParent db parent = some n) : ParentAt db parent n := by
  rw [resolveParent] at h
  split_ifs at h with h0
  · exact Or.inl ⟨h0, (Option.some.inj h).symm⟩
  · obtain ⟨row, hrow, rfl⟩ := Option.map_eq_some_iff.mp h
    obtain ⟨hmem, rfl⟩ := Table.find?_eq_some_iff.mp hrow
    exact Or.inr hmem

lemma resolveParent_eq_none {db : TraceDb} {parent : UInt32}
    (h : resolveParent db parent = none) : parent ≠ 0 ∧ ¬ db.callToNode.HasKey parent := by
  rw [resolveParent] at h
  split_ifs at h with h0
  exact ⟨h0, Table.find?_eq_none_iff.mp (Option.map_eq_none_iff.mp h)⟩

/-- One iteration of the loop is one step. -/
lemma aggregateCall_spec {known : List UInt32} {s : Traced} (h : WellFormed s)
    (hknown : ∀ fn, fn ∈ known ↔ s.db.dict.HasKey fn) (c : Call) (o : AggregateOutcome) :
    ∃ e t, aggregateCall known c s.db o = .ok (t.db, o.record e) ∧ Step s e t ∧ e.Handles c := by
  by_cases hnew : CallIdAlreadyKnown s.db c.callId
  · refine ⟨.skip c, s, ?_, .skip hnew, rfl⟩
    rw [aggregateCall, if_pos hnew]
    rfl
  by_cases hfn : c.fnId ∈ known
  · cases hpar : resolveParent s.db c.parent with
    | some n =>
      have hp := resolveParent_eq_some hpar
      refine ⟨.fold c n, _, ?_, .fold hnew ((hknown _).mp hfn) hp, rfl⟩
      simp only [aggregateCall, if_neg hnew, hfn, not_true_eq_false, if_false, hpar,
        foldCallIntoNodes_eq (h.hasKey_parent hp) ((hknown _).mp hfn)]
      rfl
    | none =>
      refine ⟨.park c true, _, ?_, .park hnew (by simp [(hknown _).mp hfn])
        (fun _ => resolveParent_eq_none hpar), rfl⟩
      simp only [aggregateCall, if_neg hnew, hfn, not_true_eq_false, if_false, hpar]
      rfl
  · refine ⟨.park c false, _, ?_, .park hnew (by simp [← hknown, hfn]) (by simp), rfl⟩
    simp only [aggregateCall, if_neg hnew, hfn, not_false_eq_true, if_true]
    rfl

lemma aggregateLoop_append {known : List UInt32} (l l' : List Call) (db : TraceDb)
    (o : AggregateOutcome) : aggregateLoop known (l ++ l') db o =
      (aggregateLoop known l db o).bind fun r => aggregateLoop known l' r.1 r.2 := by
  induction l generalizing db o with
  | nil => rfl
  | cons c l ih =>
    rw [List.cons_append, aggregateLoop, aggregateLoop]
    cases aggregateCall known c db o with
    | error e => rfl
    | ok r => exact ih r.1 r.2

/-- The loop handles every call by one step, the last call first. -/
theorem aggregateLoop_spec (known : List UInt32) (calls : List Call) {s : Traced}
    (o : AggregateOutcome) (h : WellFormed s) (hknown : ∀ fn, fn ∈ known ↔ s.db.dict.HasKey fn) :
    ∃ es t, aggregateLoop known calls.reverse s.db o =
        .ok (t.db, es.foldl AggregateOutcome.record o) ∧
      Run Step s es t ∧ List.Forall₂ Event.Handles calls.reverse es ∧
      t.versions = newCalls s.db calls ++ s.versions ∧
      ∀ id, CallIdAlreadyKnown t.db id ↔
        CallIdAlreadyKnown s.db id ∨ id ∈ (newCalls s.db calls).map Call.callId := by
  induction calls with
  | nil => exact ⟨[], s, rfl, .nil s, .nil, rfl, by simp [newCalls]⟩
  | cons c calls ih =>
    obtain ⟨es, t, heq, hrun, hall, hver, hkn⟩ := ih
    obtain ⟨e, u, heq', hstep, hc⟩ := aggregateCall_spec (wellFormed_of_run hrun h)
      (fun fn => by rw [hknown, ← (grows_of_run hrun).dict]) c
      (es.foldl AggregateOutcome.record o)
    have hnew : e.recorded ++ newCalls s.db calls = newCalls s.db (c :: calls) := by
      rw [newCalls]
      cases hstep with
      | @skip c' hk =>
        obtain rfl : c' = c := hc
        rw [if_pos ((hkn _).mp hk)]
        rfl
      | @fold c' n hk _ _ =>
        obtain rfl : c' = c := hc
        rw [if_neg (fun h' => hk ((hkn _).mpr h'))]
        rfl
      | @park c' b hk _ _ =>
        obtain rfl : c' = c := hc
        rw [if_neg (fun h' => hk ((hkn _).mpr h'))]
        rfl
      | resolve _ _ _ _ => exact hc.elim
    refine ⟨es ++ [e], u, ?_, hrun.append (.single hstep), ?_, ?_, fun id => ?_⟩
    · rw [List.reverse_cons, aggregateLoop_append, heq, List.foldl_append]
      simp only [Except.bind, aggregateLoop, bind, heq', List.foldl_cons, List.foldl_nil]
    · rw [List.reverse_cons]
      exact List.rel_append hall (.cons hc .nil)
    · rw [hstep.versions, hver, ← List.append_assoc, hnew]
    · rw [hstep.known, hkn, or_assoc, ← hnew, List.map_append, List.mem_append,
        or_comm (a := id ∈ _)]

/-! ### The whole batch -/

lemma mem_knownFnIds {db : TraceDb} {fn : UInt32} : fn ∈ knownFnIds db ↔ db.dict.HasKey fn := by
  simp [knownFnIds, Table.HasKey]

/-- What the aggregation of `calls` does to `s`: the loop `es₁`, then the drain `es₂`. -/
structure Aggregated (s : Traced) (calls : List Call) (es₁ es₂ : List Event) (t : Traced) :
    Prop where
  run : Run Step s (es₁ ++ es₂) t
  handles : List.Forall₂ Event.Handles calls.reverse es₁
  isResolve : ∀ e ∈ es₂, e.IsResolve
  versions : t.versions = newCalls s.db calls ++ s.versions
  known : ∀ id, CallIdAlreadyKnown t.db id ↔
    CallIdAlreadyKnown s.db id ∨ id ∈ (newCalls s.db calls).map Call.callId

lemma Aggregated.of_newCalls_eq_nil {s t : Traced} {calls : List Call} {es₁ es₂ : List Event}
    (h : Aggregated s calls es₁ es₂ t) (hnew : newCalls s.db calls = []) :
    es₁ = calls.reverse.map Event.skip ∧ Run Step s es₂ t := by
  obtain ⟨u, h₁, h₂⟩ := h.run.split
  have hknown : ∀ c ∈ calls.reverse, CallIdAlreadyKnown s.db c.callId := fun c hc =>
    newCalls_eq_nil_iff.mp hnew c (List.mem_reverse.mp hc)
  obtain ⟨hes, rfl⟩ := skips_of_known h.handles h₁ hknown
  exact ⟨hes, h₂⟩

lemma foldl_record_skips (calls : List Call) (o : AggregateOutcome) :
    (calls.map Event.skip).foldl AggregateOutcome.record o =
      { o with redeliveredSkipped := o.redeliveredSkipped + calls.length } := by
  induction calls generalizing o with
  | nil => rfl
  | cons c calls ih =>
    rw [List.map_cons, List.foldl_cons, ih]
    simp only [AggregateOutcome.record, List.length_cons]
    congr 1
    omega

/-- The counters that a run of events returns in the state `t`. -/
def outcomeOf (es : List Event) (t : Traced) : AggregateOutcome :=
  { es.foldl AggregateOutcome.record {} with pendingTotal := t.db.pendingCalls.rows.length }

lemma nodesTouched_mono (es : List Event) (o : AggregateOutcome) :
    o.nodesTouched ≤ (es.foldl AggregateOutcome.record o).nodesTouched := by
  induction es generalizing o with
  | nil => exact le_rfl
  | cons e es ih =>
    refine le_trans ?_ (ih _)
    cases e <;> simp [AggregateOutcome.record, AggregateOutcome.countNew]

/-- Parking a call that cannot be resolved leaves nothing resolvable. -/
lemma saturated_of_park {s : Traced} {c : Call} {fnKnown : Bool}
    (hstep : Step s (.park c fnKnown) ((s.push c).park c)) (h : Saturated s.db) :
    Saturated ((s.push c).park c).db := by
  cases hstep with
  | park _ hfn hpar =>
    intro p hp hres
    rcases Table.mem_insertOrIgnore.mp hp with hp | ⟨rfl, -⟩
    · exact h p hp hres
    · have hpar' := hpar (hfn.mpr hres.1)
      exact hres.2.elim hpar'.1 hpar'.2

/-- Steps that touch no node leave a saturated state saturated. -/
lemma saturated_of_not_touched {s t : Traced} {es : List Event} (o : AggregateOutcome)
    (hrun : Run Step s es t) (ho : o.nodesTouched = 0)
    (hes : (es.foldl AggregateOutcome.record o).nodesTouched = 0) (h : Saturated s.db) :
    Saturated t.db := by
  induction hrun generalizing o with
  | nil => exact h
  | @cons s u t e es hstep _ ih =>
    have hle := nodesTouched_mono es (o.record e)
    rw [List.foldl_cons] at hes
    have he : (o.record e).nodesTouched = 0 := by omega
    apply ih (o.record e) he hes
    cases hstep with
    | skip _ => exact h
    | fold _ _ _ => simp [AggregateOutcome.record] at he
    | park hnew hfn hpar => exact saturated_of_park (.park hnew hfn hpar) h
    | resolve _ _ _ _ => simp [AggregateOutcome.record] at he

/-- Aggregating a batch always succeeds. It leaves nothing resolvable if nothing was resolvable
before, and also if the batch brought `dict` entries. -/
theorem aggregateCalls_spec [Engine] {s : Traced} (h : WellFormed s) (batch : Batch) :
    ∃ es₁ es₂ t, aggregateCalls s.db batch = .ok (t.db, outcomeOf (es₁ ++ es₂) t) ∧
      Aggregated s batch.calls es₁ es₂ t ∧
      (batch.dict ≠ [] ∨ Saturated s.db → Saturated t.db) := by
  obtain ⟨es₁, t, heq, hrun, hall, hver, hkn⟩ :=
    aggregateLoop_spec (knownFnIds s.db) batch.calls {} h (fun _ => mem_knownFnIds)
  by_cases hgate : batch.dict ≠ [] ∨ 0 < (es₁.foldl AggregateOutcome.record {}).nodesTouched
  · obtain ⟨es₂, items, u, heq', hres, hsat⟩ :=
      drainPending_spec (knownFnIds s.db) (es₁.foldl AggregateOutcome.record {})
        (wellFormed_of_run hrun h)
        (fun fn => by rw [mem_knownFnIds, ← (grows_of_run hrun).dict])
    refine ⟨es₁, es₂, u, ?_, ⟨hrun.append hres.run, hall, hres.isResolve, ?_, fun id => ?_⟩,
      fun _ => hsat⟩
    · rw [aggregateCalls]
      simp only [bind, Except.bind, heq, if_pos hgate, heq', pure, Except.pure, outcomeOf,
        List.foldl_append]
    · rw [versions_of_isResolve hres.run hres.isResolve, hver]
    · rw [known_of_isResolve hres.run hres.isResolve, hkn]
  · refine ⟨es₁, [], t, ?_, ⟨by simpa using hrun, hall, by simp, hver, hkn⟩, fun hsat => ?_⟩
    · rw [aggregateCalls]
      simp only [bind, Except.bind, heq, if_neg hgate, pure, Except.pure, outcomeOf,
        List.append_nil]
    · simp only [not_or, not_lt, Nat.le_zero] at hgate
      exact saturated_of_not_touched {} hrun rfl hgate.2 (hsat.resolve_left hgate.1)

end PhpTreeViz
