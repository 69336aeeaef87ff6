import PhpTreeViz.Finalize

/-!
# Ingest, decoder and finalize loop

The tasks of the server that share the raw directories. An ingest handler reserves a slot of the
queue, commits the request to a raw file and sends its path. The decoder receives a path, reads the
file, and records the batch. The finalize loop removes the raw directories of the traces that it
finalizes cleanly, without a look at the queue. The bytes of a submission are only in the file: what
its request was is part of the state here so that one can say that the file still holds it.
-/

namespace PhpTreeViz

open Core

namespace Server

/-- The wire decoder, and the key of a trace. -/
structure Wire where
  parseMeta : List UInt8 → Option Meta
  parseBatch : List UInt8 → Option Batch
  fromMeta : Meta → TraceKey

structure Config where
  queueCapacity : ℕ
  idleNanos : Int64
  maxPendingNanos : Int64

/-- What ingest sends to the decoder, and the request it stands for. -/
structure BatchSubmission where
  path : RawPath
  traceKey : TraceKey
  request : List UInt8
  deriving DecidableEq

/-- The decoder task: waiting for a submission, about to read its file, or about to record it. -/
inductive Decoder where
  | idle
  | received (item : BatchSubmission)
  | parsed (item : BatchSubmission) (batch : Batch)

/-- `permits` are the slots reserved by handlers that have not committed yet, `committed` the
submissions of those that have not sent yet. -/
structure State where
  storage : Storage
  permits : ℕ
  committed : List BatchSubmission
  queue : List BatchSubmission
  decoder : Decoder

/-- A server that has just started. -/
def State.start (storage : Storage) : State where
  storage := storage
  permits := 0
  committed := []
  queue := []
  decoder := .idle

/-- The submission that the decoder is about to read. -/
def Decoder.unread : Decoder → List BatchSubmission
  | .received item => [item]
  | _              => []

/-- The submissions whose file is still to be read. -/
def State.waiting (s : State) : List BatchSubmission := s.committed ++ s.queue ++ s.decoder.unread

inductive Event where
  | reserve
  | commit (request : List UInt8)
  | reject (request : List UInt8) (fault : PartialFault)
  | send (item : BatchSubmission)
  | receive
  | read
  | drop
  | unreadable
  | record (item : BatchSubmission) (batch : Batch) (receivedAtNs : Int64) (fault : CommitFault)
  | tick (nowNs : Int64) (faults : Finalize.Faults)

/-- One step of a task. Handlers run in parallel, so any of them may send next. The file of a
submission may be unreadable though it is there. -/
inductive Step [Engine] (w : Wire) (cfg : Config) : State → Event → State → Prop where
  | reserve {s : State} :
      s.queue.length + s.committed.length + s.permits < cfg.queueCapacity →
      Step w cfg s .reserve { s with permits := s.permits + 1 }
  | commit {s : State} {request : List UInt8} {m : Meta} {raw : TraceKey → Option RawDir}
      {path : RawPath} :
      0 < s.permits → w.parseMeta request = some m → m.schemaVersion = 1 →
      commitPartial s.storage.raw (w.fromMeta m) request = (raw, .ok path) →
      Step w cfg s (.commit request)
        { s with
          storage := { s.storage with raw := raw }
          permits := s.permits - 1
          committed := s.committed ++ [⟨path, w.fromMeta m, request⟩] }
  | reject {s : State} {request : List UInt8} {m : Meta} {raw : TraceKey → Option RawDir}
      {fault : PartialFault} {e : HttpError} :
      0 < s.permits → w.parseMeta request = some m → m.schemaVersion = 1 →
      commitPartial s.storage.raw (w.fromMeta m) request fault = (raw, .error e) →
      Step w cfg s (.reject request fault)
        { s with storage := { s.storage with raw := raw }, permits := s.permits - 1 }
  | send {s : State} {item : BatchSubmission} {before after : List BatchSubmission} :
      s.committed = before ++ item :: after →
      Step w cfg s (.send item)
        { s with committed := before ++ after, queue := s.queue ++ [item] }
  | receive {s : State} {item : BatchSubmission} {rest : List BatchSubmission} :
      s.decoder = .idle → s.queue = item :: rest →
      Step w cfg s .receive { s with queue := rest, decoder := .received item }
  | read {s : State} {item : BatchSubmission} {batch : Batch} :
      s.decoder = .received item →
      (readRaw s.storage.raw item.path).bind w.parseBatch = some batch →
      Step w cfg s .read { s with decoder := .parsed item batch }
  | drop {s : State} {item : BatchSubmission} :
      s.decoder = .received item →
      (readRaw s.storage.raw item.path).bind w.parseBatch = none →
      Step w cfg s .drop { s with decoder := .idle }
  | unreadable {s : State} {item : BatchSubmission} :
      s.decoder = .received item → Step w cfg s .unreadable { s with decoder := .idle }
  | record {s : State} {item : BatchSubmission} {batch : Batch} {receivedAtNs : Int64}
      {fault : CommitFault} :
      s.decoder = .parsed item batch →
      Step w cfg s (.record item batch receivedAtNs fault)
        { s with
          storage := (recordBatch s.storage item.traceKey batch receivedAtNs fault).1
          decoder := .idle }
  | tick {s : State} {nowNs : Int64} {faults : Finalize.Faults} :
      Step w cfg s (.tick nowNs faults)
        { s with
          storage :=
            (Finalize.runOneTick s.storage nowNs cfg.idleNanos cfg.maxPendingNanos faults).1 }

section waiting

variable {s t : State} {item other : BatchSubmission} {before after rest : List BatchSubmission}

/-- A submission that is sent still waits. -/
lemma mem_waiting_send (hcommitted : s.committed = before ++ item :: after) :
    other ∈ State.waiting { s with committed := before ++ after, queue := s.queue ++ [item] } ↔
      other ∈ s.waiting := by
  simp only [State.waiting, hcommitted, List.mem_append, List.mem_cons, List.not_mem_nil, or_false]
  tauto

/-- A submission that is received still waits. -/
lemma mem_waiting_receive (hidle : s.decoder = .idle) (hqueue : s.queue = item :: rest) :
    other ∈ State.waiting { s with queue := rest, decoder := .received item } ↔
      other ∈ s.waiting := by
  simp only [State.waiting, hqueue, hidle, Decoder.unread, List.mem_append, List.mem_cons,
    List.not_mem_nil, or_false]
  tauto

lemma mem_waiting_received (hreceived : s.decoder = .received item) :
    other ∈ s.waiting ↔ other ∈ s.committed ++ s.queue ∨ other = item := by
  rw [State.waiting, hreceived, Decoder.unread, List.mem_append, List.mem_singleton]

/-- Once the decoder has read its submission, the others wait. -/
lemma mem_waiting_of_unread (h : other ∈ t.waiting) (hcommitted : t.committed = s.committed)
    (hqueue : t.queue = s.queue) (hunread : t.decoder.unread = []) : other ∈ s.waiting := by
  rw [State.waiting, hcommitted, hqueue, hunread, List.append_nil] at h
  exact List.mem_append_left _ h

end waiting

/-! ### Files that are still to be read -/

/-- Every submission that waits has its own request on disk, and a parsed one gave its own batch. -/
structure Intact (w : Wire) (s : State) : Prop where
  onDisk : ∀ item ∈ s.waiting, readRaw s.storage.raw item.path = some item.request
  parsed : ∀ item batch, s.decoder = .parsed item batch → w.parseBatch item.request = some batch

/-- No trace that a tick at the time `nowNs` finalizes cleanly has a submission that waits. -/
def SparesWaiting [Engine] (cfg : Config) (s : State) (nowNs : Int64) : Prop :=
  ∀ item ∈ s.waiting,
    ¬ Finalize.FinalizesCleanly s.storage (nowNs - cfg.idleNanos) item.path.key

/-- A step that is no tick, or a tick that spares the submissions that wait. -/
def CarefulStep [Engine] (w : Wire) (cfg : Config) (s : State) (e : Event) (t : State) : Prop :=
  Step w cfg s e t ∧ ∀ nowNs faults, e = .tick nowNs faults → SparesWaiting cfg s nowNs

section intact

variable [Engine] {w : Wire} {cfg : Config} {s t : State} {e : Event}

lemma raw_recordBatch (s : Storage) (key : TraceKey) (batch : Batch) (now : Int64)
    (fault : CommitFault) : (recordBatch s key batch now fault).1.raw = s.raw := by
  simp only [recordBatch]
  split
  · rfl
  · split
    · rfl
    · split
      · rfl
      · split
        · rfl
        · simp only [upsertTrace]
          split_ifs <;> rfl

omit [Engine] in
lemma readRaw_congr {raw raw' : TraceKey → Option RawDir} {path : RawPath}
    (h : raw' path.key = raw path.key) : readRaw raw' path = readRaw raw path := by
  rw [readRaw, h, readRaw]

/-- The files that wait survive every careful step. -/
theorem CarefulStep.intact (hstep : CarefulStep w cfg s e t) (h : Intact w s) : Intact w t := by
  obtain ⟨hstep, htick⟩ := hstep
  cases hstep with
  | reserve _ => exact ⟨h.onDisk, h.parsed⟩
  | @commit request m raw path _ _ _ hcommit =>
    refine ⟨fun item hitem => ?_, h.parsed⟩
    have hold : item ∈ s.waiting → readRaw raw item.path = some item.request := fun hitem =>
      readRaw_commitPartial_of_some hcommit (h.onDisk item hitem)
    simp only [State.waiting, List.mem_append, List.mem_singleton] at hitem hold
    rcases hitem with ((hitem | rfl) | hitem) | hitem
    · exact hold (Or.inl (Or.inl hitem))
    · exact readRaw_commitPartial_self hcommit
    · exact hold (Or.inl (Or.inr hitem))
    · exact hold (Or.inr hitem)
  | reject _ _ _ hcommit =>
    exact ⟨fun item hitem => readRaw_commitPartial_of_some hcommit (h.onDisk item hitem), h.parsed⟩
  | @send item before after hcommitted =>
    exact ⟨fun other hother => h.onDisk other ((mem_waiting_send hcommitted).mp hother), h.parsed⟩
  | @receive item rest hidle hqueue =>
    exact ⟨fun other hother => h.onDisk other ((mem_waiting_receive hidle hqueue).mp hother),
      by simp⟩
  | @read item batch hreceived hparse =>
    have hitem : item ∈ s.waiting := (mem_waiting_received hreceived).mpr (Or.inr rfl)
    refine ⟨fun other hother => h.onDisk other ?_, fun item' batch' heq => ?_⟩
    · exact mem_waiting_of_unread hother rfl rfl rfl
    · obtain ⟨rfl, rfl⟩ := Decoder.parsed.inj heq
      rwa [h.onDisk item hitem, Option.bind_some] at hparse
  | drop _ _ | unreadable _ =>
    refine ⟨fun other hother => h.onDisk other ?_, by simp⟩
    exact mem_waiting_of_unread hother rfl rfl rfl
  | @record item batch now fault hparsed =>
    refine ⟨fun other hother => ?_, by simp⟩
    rw [raw_recordBatch]
    apply h.onDisk other
    exact mem_waiting_of_unread hother rfl rfl rfl
  | @tick now faults =>
    refine ⟨fun item hitem => ?_, h.parsed⟩
    have hraw := Finalize.raw_runOneTick cfg.maxPendingNanos faults
      (htick now faults rfl item hitem)
    exact (readRaw_congr hraw).trans (h.onDisk item hitem)

/-- A tick without faults loses a file that waits as soon as it does not spare them all. -/
lemma sparesWaiting_of_intact {nowNs : Int64} (hstep : Step w cfg s (.tick nowNs {}) t)
    (h : Intact w t) : SparesWaiting cfg s nowNs := by
  cases hstep with
  | tick =>
    intro item hitem hclean
    have hread := h.onDisk item hitem
    have hnone := (Finalize.runOneTick_of_finalizesCleanly cfg.maxPendingNanos hclean).1
    rw [readRaw, hnone] at hread
    cases hread

end intact

/-! ### What the decoder goes on to record -/

/-- The batch is still to be recorded for the submission. -/
def Owed (w : Wire) (s : State) (item : BatchSubmission) (batch : Batch) : Prop :=
  (item ∈ s.waiting ∧ w.parseBatch item.request = some batch) ∨ s.decoder = .parsed item batch

/-- The number of steps that the handlers and the decoder have left. -/
def State.work (s : State) : ℕ :=
  4 * s.committed.length + 3 * s.queue.length +
    match s.decoder with
    | .idle       => 0
    | .received _ => 2
    | .parsed _ _ => 1

section progress

variable [Engine] {w : Wire} {s : State}

/-- Without ticks and with files that can be read, the tasks make progress, and a batch that is owed
stays owed until it is recorded. -/
lemma exists_step (cfg : Config) (h : Intact w s) (hwork : s.work ≠ 0) (now : Int64) : ∃ e t,
    CarefulStep w cfg s e t ∧ e ≠ .unreadable ∧ t.work < s.work ∧
      ∀ item batch, Owed w s item batch →
        Owed w t item batch ∨ e = .record item batch now .none := by
  cases hdec : s.decoder with
  | parsed item batch =>
    refine ⟨.record item batch now .none, _, ⟨.record hdec, by simp⟩, nofun, ?_, ?_⟩
    · simp [State.work, hdec]
    · rintro item' batch' (⟨hmem, hparse⟩ | hparsed)
      · refine Or.inl (Or.inl ⟨?_, hparse⟩)
        simpa [State.waiting, hdec, Decoder.unread] using hmem
      · obtain ⟨rfl, rfl⟩ := Decoder.parsed.inj (hdec.symm.trans hparsed)
        exact Or.inr rfl
  | received item =>
    have hread := h.onDisk item ((mem_waiting_received hdec).mpr (Or.inr rfl))
    cases hparse : w.parseBatch item.request with
    | some batch =>
      have hbatch : (readRaw s.storage.raw item.path).bind w.parseBatch = some batch := by
        rw [hread, Option.bind_some, hparse]
      refine ⟨_, _, ⟨.read hdec hbatch, by simp⟩, nofun, ?_, ?_⟩
      · simp [State.work, hdec]
      · rintro item' batch' (⟨hmem, hparse'⟩ | hparsed)
        · rcases (mem_waiting_received hdec).mp hmem with hmem | rfl
          · exact Or.inl (Or.inl ⟨List.mem_append_left _ hmem, hparse'⟩)
          · obtain rfl := Option.some.inj (hparse.symm.trans hparse')
            exact Or.inl (Or.inr rfl)
        · rw [hdec] at hparsed
          cases hparsed
    | none =>
      have hnone : (readRaw s.storage.raw item.path).bind w.parseBatch = none := by
        rw [hread, Option.bind_some, hparse]
      refine ⟨_, _, ⟨.drop hdec hnone, by simp⟩, nofun, ?_, ?_⟩
      · simp [State.work, hdec]
      · rintro item' batch' (⟨hmem, hparse'⟩ | hparsed)
        · rcases (mem_waiting_received hdec).mp hmem with hmem | rfl
          · exact Or.inl (Or.inl ⟨List.mem_append_left _ hmem, hparse'⟩)
          · cases hparse.symm.trans hparse'
        · rw [hdec] at hparsed
          cases hparsed
  | idle =>
    have hnone : ∀ item batch, s.decoder ≠ .parsed item batch := by simp [hdec]
    cases hqueue : s.queue with
    | cons item rest =>
      refine ⟨_, _, ⟨.receive hdec hqueue, by simp⟩, nofun, ?_, fun item' batch' howed => ?_⟩
      · simp only [State.work, hdec, hqueue, List.length_cons]
        omega
      · obtain ⟨hmem, hparse⟩ := howed.resolve_right (hnone _ _)
        exact Or.inl (Or.inl ⟨(mem_waiting_receive hdec hqueue).mpr hmem, hparse⟩)
    | nil =>
      cases hcommitted : s.committed with
      | cons item rest =>
        have hsplit : s.committed = [] ++ item :: rest := hcommitted
        refine ⟨_, _, ⟨.send hsplit, by simp⟩, nofun, ?_, fun item' batch' howed => ?_⟩
        · simp [State.work, hdec, hqueue, hcommitted]
          omega
        · obtain ⟨hmem, hparse⟩ := howed.resolve_right (hnone _ _)
          exact Or.inl (Or.inl ⟨(mem_waiting_send hsplit).mpr hmem, hparse⟩)
      | nil => simp [State.work, hdec, hqueue, hcommitted] at hwork

/-- The tasks can go on to record every batch that is owed. -/
theorem exists_run_recording (cfg : Config) (h : Intact w s) (now : Int64) : ∃ es t,
    Run (Step w cfg) s es t ∧
      ∀ item batch, Owed w s item batch → .record item batch now .none ∈ es := by
  induction hn : s.work using Nat.strong_induction_on generalizing s with
  | _ n ih =>
    by_cases hwork : s.work = 0
    · refine ⟨[], s, .nil s, ?_⟩
      simp only [State.work] at hwork
      cases hdec : s.decoder with
      | idle =>
        simp only [hdec, Nat.add_zero] at hwork
        have hcommitted : s.committed = [] := List.length_eq_zero_iff.mp (by omega)
        have hqueue : s.queue = [] := List.length_eq_zero_iff.mp (by omega)
        simp [Owed, State.waiting, hcommitted, hqueue, hdec, Decoder.unread]
      | received item => simp [hdec] at hwork
      | parsed item batch => simp [hdec] at hwork
    · obtain ⟨e, t, hstep, -, hless, howed⟩ := exists_step cfg h hwork now
      obtain ⟨es, u, hrun, hrecords⟩ := ih t.work (hn ▸ hless) (hstep.intact h) rfl
      refine ⟨e :: es, u, .cons hstep.1 hrun, fun item batch ho => ?_⟩
      rcases howed item batch ho with ho | rfl
      · exact List.mem_cons_of_mem _ (hrecords item batch ho)
      · exact List.mem_cons_self

end progress

/-- As long as no tick finalizes cleanly a trace with a submission that waits, every submission
finds its own request on disk, and the decoder can go on to record it. Any other tick loses a
submission, unless it meets a fault. -/
theorem intact_of_run [Engine] {w : Wire} {cfg : Config} {storage : Storage} {es : List Event}
    {s : State} (hrun : Run (CarefulStep w cfg) (.start storage) es s) :
    (∀ item ∈ s.waiting, readRaw s.storage.raw item.path = some item.request) ∧
    (∀ now, ∃ es' t, Run (Step w cfg) s es' t ∧
      ∀ item ∈ s.waiting, ∀ batch, w.parseBatch item.request = some batch →
        .record item batch now .none ∈ es') ∧
    ∀ nowNs t, Step w cfg s (.tick nowNs {}) t → (Intact w t ↔ SparesWaiting cfg s nowNs) := by
  have hintact : Intact w s := hrun.invariant (I := Intact w) (P := fun _ => True)
    (fun _ _ _ _ hstep h => hstep.intact h) (fun _ _ => trivial)
    ⟨by simp [State.start, State.waiting, Decoder.unread], by simp [State.start]⟩
  refine ⟨hintact.onDisk, fun now => ?_, fun nowNs t hstep => ⟨sparesWaiting_of_intact hstep,
    fun hspares => CarefulStep.intact ⟨hstep, ?_⟩ hintact⟩⟩
  · obtain ⟨es', t, hrun', hrecords⟩ := exists_run_recording cfg hintact now
    exact ⟨es', t, hrun', fun item hitem batch hparse =>
      hrecords item batch (Or.inl ⟨hitem, hparse⟩)⟩
  · rintro now faults ⟨⟩
    exact hspares

/-! ### One request -/

def oneMeta : Meta where
  schemaVersion := 1
  traceId := "01890d1c-12cd-7c0a-9d4b-5e2f6a3b8c19"
  host := "h"
  pid := 1
  startTime := 1
  sapi := "cli"
  uriOrScript := "x"
  droppedRecords := 0

/-- The MessagePack form of a batch with the meta block `oneMeta`, and nothing else. -/
def oneRequest : List UInt8 :=
  let str (s : String) : List UInt8 := s.toList.map Char.toUInt8
  [0x83, 0xa4] ++ str "meta" ++ [0x88, 0xae] ++ str "schema_version" ++ [0x01, 0xa8] ++
    str "trace_id" ++ [0xd9, 0x24] ++ str "01890d1c-12cd-7c0a-9d4b-5e2f6a3b8c19" ++ [0xa4] ++
    str "host" ++ [0xa1] ++ str "h" ++ [0xa3] ++ str "pid" ++ [0x01, 0xaa] ++ str "start_time" ++
    [0x01, 0xa4] ++ str "sapi" ++ [0xa3] ++ str "cli" ++ [0xad] ++ str "uri_or_script" ++ [0xa1] ++
    str "x" ++ [0xaf] ++ str "dropped_records" ++ [0x00, 0xa4] ++ str "dict" ++ [0x90, 0xa5] ++
    str "calls" ++ [0x90]

/-- A decoder that knows this request. -/
def oneWire : Wire where
  parseMeta request := if request = oneRequest then some oneMeta else none
  parseBatch request := if request = oneRequest then some ⟨oneMeta, [], []⟩ else none
  fromMeta _ := ⟨"01890d1c12cd7c0a9d4b5e2f6a3b8c19"⟩

lemma parseMeta_oneRequest : oneWire.parseMeta oneRequest = some oneMeta := by
  simp [oneWire]

lemma parseBatch_oneRequest : oneWire.parseBatch oneRequest = some ⟨oneMeta, [], []⟩ := by
  simp [oneWire]

/-- The request, committed and not yet sent. -/
theorem intact_of_run_one_request :
    letI := Engine.stored
    ∃ es s item, Run (CarefulStep oneWire ⟨1, 30, 60⟩) (.start .empty) es s ∧
      item ∈ s.waiting ∧ item.request = oneRequest ∧
      readRaw s.storage.raw item.path = some item.request := by
  let _ := Engine.stored
  obtain ⟨s, item, hrun, hcommitted, hrequest⟩ : ∃ s item,
      Run (CarefulStep oneWire ⟨1, 30, 60⟩) (.start .empty) [.reserve, .commit oneRequest] s ∧
      s.committed = [item] ∧ item.request = oneRequest :=
    ⟨_, _, .cons ⟨.reserve (by decide), by simp⟩ (.single
      ⟨.commit (by decide) parseMeta_oneRequest rfl rfl, by simp⟩), rfl, rfl⟩
  have hwaiting : item ∈ s.waiting := by
    rw [State.waiting, hcommitted]
    exact List.mem_append_left _ (List.mem_append_left _ (List.mem_singleton.mpr rfl))
  exact ⟨_, s, item, hrun, hwaiting, hrequest, (intact_of_run hrun).1 item hwaiting⟩

/-- The request is recorded and delivered once more. A tick removes the second file while its
submission is in the queue. -/
theorem not_intact :
    letI := Engine.stored
    ¬ ∀ (w : Wire) (cfg : Config) es s, Run (Step w cfg) (.start .empty) es s →
      ∀ item ∈ s.waiting, readRaw s.storage.raw item.path = some item.request := by
  let _ := Engine.stored
  intro h
  let key : TraceKey := oneWire.fromMeta oneMeta
  let dir : RawDir := RawDir.rename .empty (batchFileName 1) oneRequest
  let raw : TraceKey → Option RawDir := Function.update (fun _ => none) key (some dir)
  let item : BatchSubmission := ⟨⟨key, batchFileName 1⟩, key, oneRequest⟩
  let again : BatchSubmission := ⟨⟨key, batchFileName 2⟩, key, oneRequest⟩
  have hnext : nextBatchNumber dir = 2 := by
    have hrows : dir.rows = [⟨batchFileName 1, oneRequest⟩] := rfl
    rw [nextBatchNumber, hrows]
    simp [parseBatchNumber_batchFileName (n := 1) (by decide)]
  have hfirst : commitPartial Storage.empty.raw key oneRequest = (raw, .ok item.path) := rfl
  have hsecond : commitPartial raw key oneRequest =
      (Function.update raw key (some (dir.rename (batchFileName 2) oneRequest)),
        .ok again.path) := by
    have hdir : (raw key).getD .empty = dir := by simp [raw]
    simp only [commitPartial, hdir, hnext]
    rfl
  obtain ⟨s, hrun, hqueue, hraw⟩ : ∃ s, Run (Step oneWire ⟨1, 30, 60⟩) (.start .empty)
      [.reserve, .commit oneRequest, .send item, .receive, .read,
        .record item ⟨oneMeta, [], []⟩ 0 .none, .reserve, .commit oneRequest, .send again,
        .tick 100 {}] s ∧ s.queue = [again] ∧ s.storage.raw key = none := by
    refine ⟨_, .cons (.reserve (by decide))
      (.cons (.commit (by decide) parseMeta_oneRequest rfl hfirst)
      (.cons (.send (show [item] = [] ++ item :: [] from rfl)) (.cons (.receive rfl rfl)
      (.cons (.read rfl (Option.bind_eq_some_iff.mpr ⟨oneRequest, rfl, parseBatch_oneRequest⟩))
      (.cons (.record rfl) (.cons (.reserve (by decide))
      (.cons (.commit (by decide) parseMeta_oneRequest rfl hsecond)
      (.cons (.send (show [again] = [] ++ again :: [] from rfl)) (.single .tick))))))))), rfl, ?_⟩
    rfl
  have hwaiting : again ∈ s.waiting := by
    rw [State.waiting, hqueue]
    exact List.mem_append_left _ (List.mem_append_right _ (List.mem_singleton.mpr rfl))
  have hread := h _ _ _ s hrun again hwaiting
  rw [readRaw, show s.storage.raw again.path.key = none from hraw] at hread
  cases hread

end Server

end PhpTreeViz
