import PhpTreeViz.Core.Mailbox
import PhpTreeViz.Http.Server
import PhpTreeViz.Retention
import PhpTreeViz.Storage.Delivery

/-!
# The collector

All tasks of the process together: the ingest handlers, the decoder, the finalize loop, the
retention sweeper, and the ends and starts of the process. Seen from the clients the collector is a
mailbox. It takes each acknowledged request out at most once, in the order of the acknowledgements,
and what it does to the databases is a run of storage calls that delivers the batches of these
requests. A request is lost when its raw file cannot be read, or when the process ends before it is
recorded.
-/

namespace PhpTreeViz

open Core

namespace Collector

open Server (Wire BatchSubmission State Intact)

structure Config extends Server.Config where
  retentionNanos : Int64

inductive Event where
  | task (e : Server.Event)
  | sweep (nowNs : Int64) (faults : Retention.Faults)
  | restart

/-- One step of a task. A restart leaves nothing but the data directory. -/
inductive Step [Engine] (w : Wire) (cfg : Config) : State → Event → State → Prop where
  | task {s t : State} {e : Server.Event} :
      Server.Step w cfg.toConfig s e t → Step w cfg s (.task e) t
  | sweep {s : State} {nowNs : Int64} {faults : Retention.Faults} :
      Step w cfg s (.sweep nowNs faults)
        { s with
          storage := (Retention.runOneTick s.storage nowNs cfg.retentionNanos faults).1 }
  | restart {s : State} : Step w cfg s .restart (.start s.storage)

/-- The step removes no raw files of a trace with a submission that waits. -/
def Spares [Engine] (cfg : Config) (s : State) : Event → Prop
  | .task (.tick nowNs _) => Server.SparesWaiting cfg.toConfig s nowNs
  | .sweep nowNs _        => ∀ item ∈ s.waiting,
      item.path.key ∉ listExpiredTraces s.storage (satSub nowNs cfg.retentionNanos)
  | _                     => True

def CarefulStep [Engine] (w : Wire) (cfg : Config) (s : State) (e : Event) (t : State) : Prop :=
  Step w cfg s e t ∧ Spares cfg s e

/-! ### The mailbox -/

/-- What the step is for the mailbox of acknowledged requests -/
def Event.mail : Event → List (MailEvent BatchSubmission)
  | .task (.send item)      => [.post item]
  | .task (.record _ _ _ _) => [.take]
  | .task .drop             => [.take]
  | .task .unreadable       => [.lose]
  | .restart                => [.clear]
  | _                       => []

def mailbox (es : List Event) : Mailbox BatchSubmission := .of (es.flatMap Event.mail)

/-- The process did not end, and the decoder could read its files. -/
def Lossless (es : List Event) : Prop := .restart ∉ es ∧ .task .unreadable ∉ es

/-- The requests that were answered with 200, in order -/
def acknowledged (es : List Event) : List BatchSubmission :=
  Mailbox.posted (es.flatMap Event.mail)

/-- What the decoder has in its hands and in its queue -/
def unhandled (s : State) : List BatchSubmission :=
  (match s.decoder with
    | .idle          => []
    | .received item => [item]
    | .parsed item _ => [item]) ++ s.queue

/-- The batches of a trace in the requests that can be decoded -/
def batches (w : Wire) (key : TraceKey) (items : List BatchSubmission) : List Batch :=
  (items.filter (·.traceKey = key)).filterMap (w.parseBatch ·.request)

/-- The request belongs to the trace that its `meta` block names. -/
def Accepted (w : Wire) (item : BatchSubmission) : Prop :=
  ∃ m, w.parseMeta item.request = some m ∧ m.schemaVersion = 1 ∧ item.traceKey = w.fromMeta m

section mailbox

variable {es : List Event} {e : Event} {x : MailEvent BatchSubmission}

lemma mailbox_of_nil (h : e.mail = []) : mailbox (es ++ [e]) = mailbox es := by
  rw [mailbox, List.flatMap_append, List.flatMap_singleton, h, List.append_nil, mailbox]

lemma mailbox_of_singleton (h : e.mail = [x]) : mailbox (es ++ [e]) = (mailbox es).after x := by
  rw [mailbox, List.flatMap_append, List.flatMap_singleton, h, Mailbox.of_concat, mailbox]

lemma acknowledged_append (es es' : List Event) :
    acknowledged (es ++ es') = acknowledged es ++ acknowledged es' := by
  rw [acknowledged, List.flatMap_append, Mailbox.posted_append, acknowledged, acknowledged]

lemma deliveries_append (key : TraceKey) (as bs : List Attempt) :
    deliveries key (as ++ bs) = deliveries key as ++ deliveries key bs := List.flatMap_append

lemma deliveries_eq_nil {key : TraceKey} {as : List Attempt} (h : ∀ a ∈ as, ¬ a.op.IsRecord) :
    deliveries key as = [] := by
  refine List.flatMap_eq_nil_iff.mpr fun a ha => ?_
  obtain ⟨op, ok⟩ := a
  cases op with
  | record key batch now fault => exact absurd trivial (h _ ha)
  | _ => rfl

lemma batches_append (w : Wire) (key : TraceKey) (items items' : List BatchSubmission) :
    batches w key (items ++ items') = batches w key items ++ batches w key items' := by
  rw [batches, List.filter_append, List.filterMap_append, batches, batches]

end mailbox

/-! ### Calls -/

/-- The submissions that the step takes out of the mailbox -/
def taken (s : State) : Event → List BatchSubmission
  | .task (.record _ _ _ _) => (unhandled s).take 1
  | .task .drop             => (unhandled s).take 1
  | _                       => []

/-- The step does nothing to the trace but record batches, without a fault. -/
def Quiet [Engine] (cfg : Config) (key : TraceKey) (s : State) : Event → Prop
  | .task (.record item _ _ fault) => item.traceKey = key → fault = .none
  | .task (.tick nowNs _)          =>
    key ∉ (listIdleActiveTraces s.storage (nowNs - cfg.idleNanos)).map IdleCandidate.traceKey
  | .sweep nowNs _                 =>
    key ∉ listExpiredTraces s.storage (satSub nowNs cfg.retentionNanos)
  | _                              => True

/-- The calls `as` deliver the batches of `items`, and those on the trace `key` of a quiet step are
plain. -/
structure Delivers (w : Wire) (items : List BatchSubmission) (quiet : TraceKey → Prop)
    (as : List Attempt) : Prop where
  deliveries : ∀ key, deliveries key as = batches w key items
  plain : ∀ key, quiet key → ∀ a ∈ as, a.op.key = key →
    a.op.IsCommit ∨ ∃ batch now, a.op = .record key batch now .none

namespace Delivers

variable {w : Wire} {items items' : List BatchSubmission} {quiet quiet' : TraceKey → Prop}
  {as bs : List Attempt}

lemma of_calls (hrecord : ∀ a ∈ as, ¬ a.op.IsRecord)
    (hquiet : ∀ key, quiet key → ∀ a ∈ as, a.op.key = key → a.op.IsCommit) :
    Delivers w [] quiet as :=
  ⟨fun _ => deliveries_eq_nil hrecord, fun key hkey a ha hop => .inl (hquiet key hkey a ha hop)⟩

lemma nil : Delivers w [] quiet [] := of_calls (by simp) (by simp)

lemma append (h : Delivers w items quiet as) (h' : Delivers w items' quiet' bs)
    (hquiet : ∀ key, quiet key → quiet' key) : Delivers w (items ++ items') quiet (as ++ bs) where
  deliveries key := by rw [deliveries_append, h.deliveries, h'.deliveries, batches_append]
  plain key hkey a ha := (List.mem_append.mp ha).elim (h.plain key hkey a)
    (h'.plain key (hquiet key hkey) a)

end Delivers

/-- After `es`, the collector is the mailbox, its files are there, and its databases are those of a
storage that was given the batches of the requests that were taken out. -/
structure Refines [Engine] (w : Wire) (storage : Storage) (quiet : TraceKey → Prop)
    (es : List Event) (s : State) : Prop where
  intact : Intact w s
  accepted : ∀ item ∈ s.committed ++ acknowledged es, Accepted w item
  waiting : (mailbox es).waiting = unhandled s
  delivered : ∃ as, Run Attempt.Step storage as s.storage ∧
    Delivers w (mailbox es).taken quiet as

/-! ### Steps -/

section steps

variable [Engine] {w : Wire} {cfg : Config} {storage : Storage} {es : List Event} {s t : State}

lemma calls_of_sweep (s : Storage) (nowNs retentionNanos : Int64) (faults : Retention.Faults) :
    ∃ as, Run Attempt.Step s as (Retention.runOneTick s nowNs retentionNanos faults).1 ∧
      Delivers w [] (· ∉ listExpiredTraces s (satSub nowNs retentionNanos)) as := by
  obtain ⟨as, hrun, hdelete⟩ := Retention.run_of_runOneTick s nowNs retentionNanos faults
  refine ⟨as, hrun, .of_calls (fun a ha hrecord => ?_) fun key hkey a ha hop => ?_⟩
  · obtain ⟨key, -, heq⟩ := hdelete a ha
    rw [heq] at hrecord
    exact hrecord
  · obtain ⟨key', hmem, heq⟩ := hdelete a ha
    rw [heq] at hop
    obtain rfl : key' = key := hop
    exact absurd hmem hkey

lemma calls_of_tick (s : Storage) (nowNs idleNanos maxPendingNanos : Int64)
    (faults : Finalize.Faults) : ∃ as,
    Run Attempt.Step s as (Finalize.runOneTick s nowNs idleNanos maxPendingNanos faults).1 ∧
      Delivers w [] (· ∉ (listIdleActiveTraces s (nowNs - idleNanos)).map IdleCandidate.traceKey)
        as := by
  obtain ⟨as, hrun, hfinalize⟩ :=
    Finalize.run_of_runOneTick s nowNs idleNanos maxPendingNanos faults
  refine ⟨as, hrun, .of_calls (fun a ha hrecord => ?_) fun key hkey a ha hop => ?_⟩
  · obtain ⟨hop, -⟩ := hfinalize a ha
    cases h : a.op <;> simp [h, Op.IsRecord, Op.IsFinalize] at hrecord hop
  · exact absurd (hop ▸ (hfinalize a ha).2) hkey

/-- What a step calls -/
lemma calls_of_step {e : Event} (h : Intact w s) (hstep : Step w cfg s e t) :
    ∃ as, Run Attempt.Step s.storage as t.storage ∧
      Delivers w (taken s e) (Quiet cfg · s e) as := by
  have hnone : ∀ quiet : TraceKey → Prop, ∃ as, Run Attempt.Step s.storage as s.storage ∧
      Delivers w [] quiet as := fun quiet => ⟨[], .nil s.storage, .nil⟩
  cases hstep with
  | sweep => exact calls_of_sweep _ _ _ _
  | restart => exact hnone _
  | task hstep =>
    cases hstep with
    | @commit request m raw path _ _ _ hcommit =>
      refine ⟨[⟨.commit (w.fromMeta m) request .none, true⟩], .single ?_,
        .of_calls (by simp [Op.IsRecord]) (by simp [Op.IsCommit])⟩
      simp [Attempt.Step, Op.exec, hcommit, Except.isOk, Except.toBool]
    | @reject request m raw fault e _ _ _ hcommit =>
      refine ⟨[⟨.commit (w.fromMeta m) request fault, false⟩], .single ?_,
        .of_calls (by simp [Op.IsRecord]) (by simp [Op.IsCommit])⟩
      simp [Attempt.Step, Op.exec, hcommit, Except.isOk, Except.toBool]
    | tick => exact calls_of_tick _ _ _ _ _
    | @drop item hreceived hparse =>
      -- the file is there, so it is the request that cannot be decoded
      have hread := h.onDisk item ((Server.mem_waiting_received hreceived).mpr (.inr rfl))
      rw [hread, Option.bind_some] at hparse
      have htaken : taken s (.task .drop) = [item] := by
        rw [taken, unhandled, hreceived]
        rfl
      refine ⟨[], .nil s.storage, fun key => ?_, by simp⟩
      rw [htaken, batches, List.filter_singleton]
      by_cases hkey : item.traceKey = key <;> simp [hkey, hparse, deliveries]
    | @record item batch now fault hparsed =>
      have htaken : taken s (.task (.record item batch now fault)) = [item] := by
        rw [taken, unhandled, hparsed]
        rfl
      have hstep : Attempt.Step s.storage _ _ :=
        @Attempt.step_exec _ s.storage (.record item.traceKey batch now fault) _ rfl
      refine ⟨_, .single hstep, fun key => ?_, fun key hkey a ha hop => ?_⟩
      · rw [htaken, batches, List.filter_singleton, deliveries, List.flatMap_singleton,
          Attempt.batch]
        by_cases hkey : item.traceKey = key <;> simp [hkey, h.parsed item batch hparsed]
      · obtain rfl := List.mem_singleton.mp ha
        obtain rfl : item.traceKey = key := hop
        rw [hkey rfl]
        exact .inr ⟨batch, now, rfl⟩
    | _ => exact hnone _

/-- A sweep leaves the files of the other traces alone. -/
lemma readRaw_sweep {nowNs : Int64} (faults : Retention.Faults) {path : RawPath}
    (h : path.key ∉ listExpiredTraces s.storage (satSub nowNs cfg.retentionNanos)) :
    readRaw (Retention.runOneTick s.storage nowNs cfg.retentionNanos faults).1.raw path =
      readRaw s.storage.raw path := by
  refine Server.readRaw_congr ?_
  rw [Retention.runOneTick]
  split_ifs
  · rfl
  · refine ((Retention.framed_deleteExpired faults.delete).sweep_of_not_mem ?_ s.storage).raw
    rwa [List.map_id]

/-- The files that wait survive. -/
lemma CarefulStep.intact {e : Event} (hstep : CarefulStep w cfg s e t) (h : Intact w s) :
    Intact w t := by
  obtain ⟨hstep, hspares⟩ := hstep
  cases hstep with
  | task hstep =>
    refine Server.CarefulStep.intact ⟨hstep, ?_⟩ h
    rintro nowNs faults rfl
    exact hspares
  | sweep =>
    exact ⟨fun item hitem => (readRaw_sweep _ (hspares item hitem)).trans (h.onDisk item hitem),
      h.parsed⟩
  | restart => exact ⟨by simp [State.start, State.waiting, Server.Decoder.unread],
      by simp [State.start]⟩

namespace Refines

variable {quiet : TraceKey → Prop} {e : Event}

lemma accepted_step (h : Refines w storage quiet es s) (hstep : Step w cfg s e t) :
    ∀ item ∈ t.committed ++ acknowledged (es ++ [e]), Accepted w item := by
  have hold := h.accepted
  rw [acknowledged_append, ← List.append_assoc]
  cases hstep with
  | sweep => simpa [acknowledged, Event.mail] using hold
  | restart =>
    intro item hitem
    refine hold item (List.mem_append_right _ ?_)
    simpa [State.start, acknowledged, Event.mail, Mailbox.posted] using hitem
  | task hstep =>
    cases hstep with
    | commit _ hmeta hversion _ =>
      intro item hitem
      simp only [acknowledged, Event.mail, List.flatMap_singleton, Mailbox.posted_nil,
        List.append_nil, List.append_assoc, List.mem_append, List.mem_singleton] at hitem
      rcases hitem with hitem | rfl | hitem
      · exact hold item (List.mem_append_left _ hitem)
      · exact ⟨_, hmeta, hversion, rfl⟩
      · exact hold item (List.mem_append_right _ hitem)
    | send hcommitted =>
      intro item hitem
      refine hold item ?_
      simp [acknowledged, Event.mail, Mailbox.posted, hcommitted] at hitem ⊢
      tauto
    | _ => simpa [acknowledged, Event.mail, Mailbox.posted] using hold

lemma waiting_step (h : Refines w storage quiet es s) (hstep : Step w cfg s e t) :
    (mailbox (es ++ [e])).waiting = unhandled t := by
  have hold := h.waiting
  cases hstep with
  | sweep => rw [mailbox_of_nil rfl, hold, unhandled, unhandled]
  | restart =>
    rw [mailbox_of_singleton rfl]
    rfl
  | task hstep =>
    cases hstep with
    | send _ =>
      rw [mailbox_of_singleton rfl, Mailbox.after, hold, unhandled, unhandled, List.append_assoc]
    | receive hidle hqueue =>
      rw [mailbox_of_nil rfl, hold, unhandled, unhandled, hidle, hqueue]
      rfl
    | read hreceived _ =>
      rw [mailbox_of_nil rfl, hold, unhandled, unhandled, hreceived]
    | drop hreceived _ =>
      rw [mailbox_of_singleton rfl, Mailbox.after, hold, unhandled, unhandled, hreceived]
      rfl
    | unreadable hreceived =>
      rw [mailbox_of_singleton rfl, Mailbox.after, hold, unhandled, unhandled, hreceived]
      rfl
    | record hparsed =>
      rw [mailbox_of_singleton rfl, Mailbox.after, hold, unhandled, unhandled, hparsed]
      rfl
    | _ => rw [mailbox_of_nil rfl, hold, unhandled, unhandled]

lemma taken_step (h : Refines w storage quiet es s) (e : Event) :
    (mailbox (es ++ [e])).taken = (mailbox es).taken ++ taken s e := by
  have hold := h.waiting
  cases e with
  | sweep =>
    rw [mailbox_of_nil rfl]
    exact (List.append_nil _).symm
  | restart =>
    rw [mailbox_of_singleton rfl]
    exact (List.append_nil _).symm
  | task e =>
    cases e with
    | record | drop => rw [mailbox_of_singleton rfl, Mailbox.after, hold, taken]
    | send | unreadable =>
      rw [mailbox_of_singleton rfl]
      exact (List.append_nil _).symm
    | _ =>
      rw [mailbox_of_nil rfl]
      exact (List.append_nil _).symm

lemma step (h : Refines w storage quiet es s) (hstep : CarefulStep w cfg s e t)
    (hquiet : ∀ key, quiet key → Quiet cfg key s e) : Refines w storage quiet (es ++ [e]) t where
  intact := hstep.intact h.intact
  accepted := h.accepted_step hstep.1
  waiting := h.waiting_step hstep.1
  delivered := by
    obtain ⟨as, has, hdelivers⟩ := h.delivered
    obtain ⟨bs, hbs, hdelivers'⟩ := calls_of_step h.intact hstep.1
    rw [h.taken_step e]
    exact ⟨as ++ bs, has.append hbs, hdelivers.append hdelivers' hquiet⟩

lemma run {es' : List Event}
    (hrun : Run (fun s e t => CarefulStep w cfg s e t ∧ ∀ key, quiet key → Quiet cfg key s e)
      s es' t)
    (h : Refines w storage quiet es s) : Refines w storage quiet (es ++ es') t := by
  induction hrun generalizing es with
  | nil s => rwa [List.append_nil]
  | cons hstep _ ih =>
    rw [List.append_cons]
    exact ih (h.step hstep.1 hstep.2)

lemma start (w : Wire) (storage : Storage) (quiet : TraceKey → Prop) :
    Refines w storage quiet [] (.start storage) where
  intact := ⟨by simp [State.start, State.waiting, Server.Decoder.unread], by simp [State.start]⟩
  accepted := by simp [State.start, acknowledged]
  waiting := rfl
  delivered := ⟨[], .nil storage, .nil⟩

end Refines

/-- Every careful run is a run in which nothing is asked to be quiet. -/
lemma CarefulStep.run (hrun : Run (CarefulStep w cfg) s es t) :
    Run (fun s e t => CarefulStep w cfg s e t ∧ ∀ key, False → Quiet cfg key s e) s es t :=
  hrun.map (f := id) fun _ _ _ hstep => ⟨hstep, fun _ => False.elim⟩

/-- A run that is quiet for one trace -/
lemma Quiet.run {key : TraceKey}
    (hrun : Run (fun s e t => CarefulStep w cfg s e t ∧ Quiet cfg key s e) s es t) :
    Run (fun s e t => CarefulStep w cfg s e t ∧ ∀ key', key' = key → Quiet cfg key' s e) s es t :=
  hrun.map (f := id) fun _ _ _ hstep => ⟨hstep.1, fun _ heq => heq ▸ hstep.2⟩

/-! ### Going on -/

/-- A step of the handlers or of the decoder, which are not done yet -/
lemma exists_task (cfg : Config) (h : Intact w s) (hwork : s.work ≠ 0) :
    ∃ e t, CarefulStep w cfg s (.task e) t ∧ e ≠ .unreadable ∧ t.work < s.work := by
  obtain ⟨e, t, ⟨hstep, htick⟩, hread, hless, -⟩ := Server.exists_step cfg.toConfig h hwork 0
  refine ⟨e, t, ⟨.task hstep, ?_⟩, hread, hless⟩
  cases e with
  | tick nowNs faults => exact htick nowNs faults rfl
  | _ => trivial

/-- They can go on until nothing is left to do. -/
lemma exists_run_done (cfg : Config) (h : Intact w s) : ∃ es t,
    Run (CarefulStep w cfg) s es t ∧ Lossless es ∧ t.work = 0 := by
  induction hn : s.work using Nat.strong_induction_on generalizing s with
  | _ n ih =>
    by_cases hwork : s.work = 0
    · exact ⟨[], s, .nil s, ⟨List.not_mem_nil, List.not_mem_nil⟩, hwork⟩
    · obtain ⟨e, t, hstep, hread, hless⟩ := exists_task cfg h hwork
      obtain ⟨es, u, hrun, ⟨hrestart, hreads⟩, hdone⟩ := ih t.work (hn ▸ hless) (hstep.intact h) rfl
      refine ⟨.task e :: es, u, .cons hstep hrun, ⟨?_, ?_⟩, hdone⟩
      · exact List.not_mem_cons_of_ne_of_not_mem nofun hrestart
      · exact List.not_mem_cons_of_ne_of_not_mem (fun heq => hread (Event.task.inj heq).symm) hreads

omit [Engine] in
lemma unhandled_of_work (h : s.work = 0) : unhandled s = [] := by
  simp only [State.work] at h
  have hqueue : s.queue = [] := List.length_eq_zero_iff.mp (by omega)
  cases hdec : s.decoder with
  | idle => rw [unhandled, hdec, hqueue, List.append_nil]
  | received item => simp [hdec] at h
  | parsed item batch => simp [hdec] at h

end steps

lemma Lossless.keeps {es : List Event} (h : Lossless es) :
    ∀ x ∈ es.flatMap Event.mail, x.Keeps := by
  intro x hx
  obtain ⟨e, he, hmail⟩ := List.mem_flatMap.mp hx
  cases e with
  | restart => exact absurd he h.1
  | sweep => simp [Event.mail] at hmail
  | task e =>
    cases e with
    | unreadable => exact absurd he h.2
    | send | record | drop =>
      rw [List.mem_singleton.mp hmail]
      trivial
    | _ => simp [Event.mail] at hmail

/-- The databases are those of a storage to which the batches of the acknowledged requests were
delivered, each once and in the order of the acknowledgements, but for those that the decoder has
not reached and those that are lost: it could not read their files, or had not recorded them when
the process ended. Nothing else is lost, and the decoder can always go on to reach all. -/
theorem refines_of_run [Engine] {w : Wire} {cfg : Config} {storage : Storage} {es : List Event}
    {s : State} (hrun : Run (CarefulStep w cfg) (.start storage) es s) :
    (∃ as, Run Attempt.Step storage as s.storage ∧
      ∀ key, deliveries key as = batches w key (mailbox es).taken) ∧
    (∀ item ∈ acknowledged es, Accepted w item) ∧
    (acknowledged es).Perm ((mailbox es).taken ++ unhandled s ++ (mailbox es).lost) ∧
    ((mailbox es).taken ++ unhandled s).Sublist (acknowledged es) ∧
    (Lossless es → (mailbox es).taken ++ unhandled s = acknowledged es) ∧
    ∃ es' t, Run (CarefulStep w cfg) s es' t ∧ unhandled t = [] ∧
      (mailbox (es ++ es')).taken = (mailbox es).taken ++ unhandled s ++ acknowledged es' := by
  have h : Refines w storage (fun _ => False) es s :=
    (Refines.start w storage _).run (CarefulStep.run hrun)
  obtain ⟨as, has, hdelivers⟩ := h.delivered
  refine ⟨⟨as, has, hdelivers.deliveries⟩,
    fun item hitem => h.accepted item (List.mem_append_right _ hitem), ?_, ?_,
    fun hlossless => ?_, ?_⟩
  · rw [← h.waiting]
    exact Mailbox.perm_posted _
  · rw [← h.waiting]
    exact Mailbox.sublist_posted _
  · rw [← h.waiting]
    exact (Mailbox.taken_append_waiting [] hlossless.keeps).1
  · obtain ⟨es', t, hrun', hes', hdone⟩ := exists_run_done cfg h.intact
    have hnone := unhandled_of_work hdone
    have hwaiting : (mailbox (es ++ es')).waiting = [] :=
      (h.run (CarefulStep.run hrun')).waiting.trans hnone
    have htaken := (Mailbox.taken_append_waiting (es.flatMap Event.mail) hes'.keeps).1
    rw [← List.flatMap_append, ← mailbox, hwaiting, List.append_nil] at htaken
    refine ⟨es', t, hrun', hnone, ?_⟩
    rw [← h.waiting]
    exact htaken

/-- A request on its way through a server that has nothing else to do -/
lemma exists_run_request [Engine] {w : Wire} (cfg : Config) {request : List UInt8} {m : Meta}
    {batch : Batch} (hcapacity : 0 < cfg.queueCapacity) (hmeta : w.parseMeta request = some m)
    (hversion : m.schemaVersion = 1) (hbatch : w.parseBatch request = some batch) :
    ∃ es raw, Run (fun s e t => CarefulStep w cfg s e t ∧ Quiet cfg (w.fromMeta m) s e)
        (.start .empty) es
        ⟨(recordBatch { Storage.empty with raw := raw } (w.fromMeta m) batch 0).1, 0, [], [],
          .idle⟩ ∧
      Lossless es ∧ batches w (w.fromMeta m) (acknowledged es) = [batch] ∧
      batches w (w.fromMeta m) (mailbox es).taken = [batch] := by
  let key : TraceKey := w.fromMeta m
  let raw : TraceKey → Option RawDir := Function.update (fun _ => none) key
    (some (RawDir.rename .empty (batchFileName 1) request))
  let item : BatchSubmission := ⟨⟨key, batchFileName 1⟩, key, request⟩
  have hcommit : commitPartial Storage.empty.raw key request = (raw, .ok item.path) := rfl
  have hread : readRaw raw item.path = some request := readRaw_commitPartial_self hcommit
  have hbatches : batches w key [item] = [batch] := by
    rw [batches, List.filter_singleton]
    simp [item, hbatch]
  refine ⟨[.task .reserve, .task (.commit request), .task (.send item), .task .receive, .task .read,
    .task (.record item batch 0 .none)], raw, ?_, ⟨by simp, by simp⟩, hbatches,
    hbatches⟩
  refine .cons ⟨⟨.task (.reserve hcapacity), trivial⟩, trivial⟩ ?_
  refine .cons ⟨⟨.task (.commit Nat.one_pos hmeta hversion hcommit), trivial⟩, trivial⟩ ?_
  refine .cons ⟨⟨.task (.send (show [item] = [] ++ item :: [] from rfl)), trivial⟩, trivial⟩ ?_
  refine .cons ⟨⟨.task (.receive rfl rfl), trivial⟩, trivial⟩ ?_
  refine .cons ⟨⟨.task (.read rfl (Option.bind_eq_some_iff.mpr ⟨request, hread, hbatch⟩)), trivial⟩,
    trivial⟩ ?_
  exact .single ⟨⟨.task (.record rfl), trivial⟩, fun _ => rfl⟩

/-- One request, recorded -/
theorem refines_of_run_one_request :
    letI := Engine.stored
    ∃ (cfg : Config) (es : List Event) (s : State) (as : List Attempt),
      Run (CarefulStep Server.oneWire cfg) (.start .empty) es s ∧
      Run Attempt.Step .empty as s.storage ∧
      deliveries (Server.oneWire.fromMeta Server.oneMeta) as = [⟨Server.oneMeta, [], []⟩] := by
  let _ := Engine.stored
  let cfg : Config := ⟨⟨1, 30, 60⟩, 1000⟩
  obtain ⟨es, raw, hrun, -, -, htaken⟩ := exists_run_request cfg (by decide)
    Server.parseMeta_oneRequest rfl Server.parseBatch_oneRequest
  have hcareful := hrun.map (f := id) fun _ _ _ hstep => hstep.1
  obtain ⟨⟨as, has, hdeliveries⟩, -⟩ := refines_of_run hcareful
  exact ⟨cfg, es, _, as, hcareful, has, (hdeliveries _).trans htaken⟩

end Collector

end PhpTreeViz
