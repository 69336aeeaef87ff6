import PhpTreeViz.Core.Syscall
import PhpTreeViz.Http.Commit
import PhpTreeViz.Http.Server
import PhpTreeViz.Wire.Decode

/-!
# The ingest handler

One `POST /ingest/v1` from its headers to its answer: the body is streamed to a partial file, read
back and decoded as far as the `meta` block, a slot of the queue is reserved, and the partial is
committed to the raw directory of its trace. Every system call may fail. The mutex of the trace, and
what other handlers do, are the subject of `PhpTreeViz.Http.Commit`.

The state has a log next to what the code has: the bytes that were handed to `parse_meta`, how many
bytes were written, and whether a best-effort removal has failed.
-/

namespace PhpTreeViz

open Core

namespace Ingest

open Commit (FileName target bumpMaxSeen CommitError)

/-! ### The state -/

/-- A file in a raw directory. `synced` says that its bytes are durable. -/
structure File where
  name : FileName
  bytes : List UInt8
  synced : Bool

/-- A raw directory. `synced` says that its entries are durable. -/
structure Dir where
  files : Table File.name
  synced : Bool

def Dir.empty : Dir := ⟨.empty, false⟩

def Dir.rename (dir : Dir) (name : FileName) (bytes : List UInt8) : Dir where
  files := dir.files.upsert ⟨name, bytes, false⟩
    (fun f => { f with bytes := bytes, synced := false }) fun _ => rfl
  synced := false

def Dir.syncFile (dir : Dir) (name : FileName) : Dir :=
  { dir with files := dir.files.modify name ({ · with synced := true }) fun _ => rfl }

structure BatchSubmission where
  path : RawPath
  traceKey : TraceKey
  deriving DecidableEq

/-- The bounded channel. `reserved` are the permits that are held. -/
structure Queue where
  capacity : ℕ
  items : List BatchSubmission
  reserved : ℕ
  closed : Bool

structure Log where
  decoded : List (List UInt8) := []
  written : ℕ := 0
  cleanupFailed : Bool := false

structure State where
  tmp : String → Option (List UInt8)
  raw : TraceKey → Option Dir
  queue : Queue
  log : Log := {}

namespace State

def setTmp (s : State) (name : String) (bytes : Option (List UInt8)) : State :=
  { s with tmp := Function.update s.tmp name bytes }

def setRaw (s : State) (key : TraceKey) (dir : Dir) : State :=
  { s with raw := Function.update s.raw key (some dir) }

def append (s : State) (name : String) (data : List UInt8) : State :=
  { s.setTmp name ((s.tmp name).map (· ++ data)) with
    log := { s.log with written := s.log.written + data.length } }

/-- The effect of `open` with `create_new`. -/
def createNew (s : State) (name : String) : Except IoError Unit × State :=
  match s.tmp name with
  | some _ => (.error .other, s)
  | none   => (.ok (), s.setTmp name (some []))

def unlink (s : State) (name : String) : Except IoError Unit × State :=
  match s.tmp name with
  | none   => (.error .notFound, s)
  | some _ => (.ok (), s.setTmp name none)

/-- The effect of `rename` between the temporary directory and a raw directory. -/
def rename (s : State) (partialName : String) (path : RawPath) : Except IoError Unit × State :=
  match s.tmp partialName, s.raw path.key with
  | some bytes, some dir =>
    (.ok (), (s.setTmp partialName none).setRaw path.key (dir.rename (.utf8 path.name) bytes))
  | _, _ => (.error .notFound, s)

/-- An effect on the raw directory of `key`, which must be there. -/
def onDir (s : State) (key : TraceKey) (f : Dir → Dir) : Except IoError Unit × State :=
  match s.raw key with
  | none     => (.error .notFound, s)
  | some dir => (.ok (), s.setRaw key (f dir))

end State

/-! ### System calls -/

/-- How far a call got that was cut off: the bytes of a write that reached the file, and whether a
directory was created. -/
structure Cut where
  kept : ℕ
  created : Bool

/-- A call that has its effect or fails. -/
def call {ε α : Type} (run : State → Except IoError α × State) :
    Sys Cut State ε (Except IoError α) := syscall run fun _ s => s

/-- A call that is only known to succeed or to fail. -/
def probe {ε : Type} : Sys Cut State ε (Except IoError Unit) := query fun _ => .ok ()

abbrev Handler := Sys Cut State Empty

def openPartial (name : String) : Handler (Except IoError Unit) := call (·.createNew name)

def writeAll (name : String) (data : List UInt8) : Handler (Except IoError Unit) :=
  syscall (fun s => (.ok (), s.append name data)) fun c s => s.append name (data.take c.kept)

def readPartial (name : String) : Handler (Except IoError (List UInt8)) :=
  query fun s => (s.tmp name).elim (.error .notFound) .ok

/-- `let _ = remove_file(&path).await`. A failure is only logged here. -/
def removePartial (name : String) : Handler Unit := do
  match ← call (·.unlink name) with
  | .error .other => act fun s => ((), { s with log := { s.log with cleanupFailed := true } })
  | _             => pure ()

/-! ### Committing -/

abbrev CommitM := Sys Cut State CommitError

def ensureTraceDir (key : TraceKey) : CommitM Unit := do
  syscall (fun s => (.ok (), s.setRaw key ((s.raw key).getD .empty)))
    (fun c s => if c.created then s.setRaw key ((s.raw key).getD .empty) else s)
    >>= orFail .tracesDir
  probe >>= orFail .tracesDir

/-- The loop of `next_batch_number`, one call for each entry and one that finds the end. -/
def scanEntries (maxSeen : ℕ) : List FileName → CommitM ℕ
  | []            => do
    probe >>= orFail .tracesDir
    pure maxSeen
  | name :: names => do
    probe >>= orFail .tracesDir
    scanEntries (bumpMaxSeen maxSeen name) names

def nextBatchNumber (key : TraceKey) : CommitM ℕ := do
  let names ← query (fun s => (s.raw key).elim (.error .notFound) fun dir =>
    .ok (dir.files.rows.map File.name)) >>= orFail .tracesDir
  return (← scanEntries 0 names) + 1

/-- `fsync_path` of a file: open it, and `sync_all`. -/
def fsyncFile (path : RawPath) : CommitM Unit := do
  probe >>= orFail .fsync
  call (·.onDir path.key (·.syncFile (.utf8 path.name))) >>= orFail .fsync

/-- `fsync_path` of the directory -/
def fsyncDir (key : TraceKey) : CommitM Unit := do
  probe >>= orFail .fsync
  call (·.onDir key ({ · with synced := true })) >>= orFail .fsync

def commitPartial (partialName : String) (key : TraceKey) : CommitM RawPath := do
  ensureTraceDir key
  let next ← nextBatchNumber key
  if next > batchMax then fail .traceFull
  else
    let path : RawPath := ⟨key, batchFileName next⟩
    call (·.rename partialName path) >>= orFail .rename
    fsyncFile path
    fsyncDir key
    return path

/-! ### Requests and answers -/

inductive Frame where
  | data (bytes : List UInt8)
  | trailers

/-- A request: its `Content-Length`, and what the body yields, `none` for an error. -/
structure Request where
  contentLength : Option (List UInt8)
  frames : List (Option Frame)

/-- The answers, by their bodies. -/
inductive Response where
  | ok
  | tooLarge
  | malformedFrame
  | internal
  | malformedMsgpack
  | unsupportedSchemaVersion (got : UInt32)
  | backpressure
  | traceFull (key : TraceKey)
  deriving DecidableEq

def Response.status : Response → ℕ
  | .ok                         => 200
  | .tooLarge                   => 413
  | .malformedFrame             => 400
  | .malformedMsgpack           => 400
  | .unsupportedSchemaVersion _ => 422
  | .backpressure               => 503
  | .internal                   => 500
  | .traceFull _                => 500

/-- `HeaderValue::to_str`: visible ASCII, space and tab. -/
def headerToStr (value : List UInt8) : Option (List Char) :=
  if value.all fun b => (32 ≤ b ∧ b < 127) ∨ b = 9 then
    some (value.map fun b => Char.ofNat b.toNat)
  else none

/-- `str::parse::<u64>`, which accepts a leading plus sign. -/
def parseU64 (cs : List Char) : Option ℕ :=
  (digitsValue (if cs.head? = some '+' then cs.tail else cs)).filter (· < 2 ^ 64)

def declaredContentLength (req : Request) : Option ℕ :=
  req.contentLength.bind fun value => (headerToStr value).bind parseU64

/-! ### The handler -/

inductive Outcome where
  | ok
  | overCap
  | frameError
  | writeError
  deriving DecidableEq

/-- The loop over the frames, with the bytes read so far. -/
def streamBodyToFile (name : String) (cap bytesRead : ℕ) :
    List (Option Frame) → Handler (Outcome × ℕ)
  | []                     => pure (.ok, bytesRead)
  | none :: _              => pure (.frameError, bytesRead)
  | some .trailers :: rest => streamBodyToFile name cap bytesRead rest
  | some (.data data) :: rest => do
    let bytesRead := bytesRead + data.length
    if bytesRead > cap then return (.overCap, bytesRead)
    else
      match ← writeAll name data with
      | .error _ => return (.writeError, bytesRead)
      | .ok ()   => streamBodyToFile name cap bytesRead rest

def parseMeta (w : Server.Wire) (bytes : List UInt8) : Handler (Option Meta) :=
  act fun s => (w.parseMeta bytes,
    { s with log := { s.log with decoded := s.log.decoded ++ [bytes] } })

/-- `batch_tx.try_reserve()` -/
def tryReserve : Handler Bool :=
  act fun s =>
    if s.queue.closed ∨ s.queue.capacity ≤ s.queue.items.length + s.queue.reserved then (false, s)
    else (true, { s with queue := { s.queue with reserved := s.queue.reserved + 1 } })

/-- `permit.send(submission)` -/
def send (item : BatchSubmission) : Handler Unit :=
  act fun s => ((), { s with queue := { s.queue with
    items := s.queue.items ++ [item]
    reserved := s.queue.reserved - 1 } })

/-- `drop(permit)` -/
def dropPermit : Handler Unit :=
  act fun s => ((), { s with queue := { s.queue with reserved := s.queue.reserved - 1 } })

/-- Give up on a request whose partial is in the way. -/
def reject (name : String) (answer : Response) (bytesRead : ℕ) : Handler (Response × ℕ) := do
  removePartial name
  return (answer, bytesRead)

/-- From the reserved slot on. -/
def commit (w : Server.Wire) (name : String) (m : Meta) (bytesRead : ℕ) :
    Handler (Response × ℕ) := do
  let key := w.fromMeta m
  match ← attempt (commitPartial name key) with
  | .ok path =>
    send ⟨path, key⟩
    return (.ok, bytesRead)
  | .error .traceFull =>
    dropPermit
    return (.traceFull key, bytesRead)
  | .error _ =>
    dropPermit
    reject name .internal bytesRead

/-- From the streamed body on. -/
def decode (w : Server.Wire) (name : String) (bytesRead : ℕ) : Handler (Response × ℕ) := do
  match ← probe with
  | .error _ => reject name .internal bytesRead
  | .ok ()   =>
    match ← readPartial name with
    | .error _  => reject name .internal bytesRead
    | .ok bytes =>
      match ← parseMeta w bytes with
      | none   => reject name .malformedMsgpack bytesRead
      | some m =>
        if m.schemaVersion ≠ 1 then
          reject name (.unsupportedSchemaVersion m.schemaVersion) bytesRead
        else
          match ← tryReserve with
          | false => reject name .backpressure bytesRead
          | true  => commit w name m bytesRead

/-- The handler. It answers together with the number of body bytes that it read. -/
def ingest (w : Server.Wire) (maxBodyBytes : ℕ) (name : String) (req : Request) :
    Handler (Response × ℕ) := do
  if (declaredContentLength req).any (· > maxBodyBytes) then return (.tooLarge, 0)
  else
    match ← openPartial name with
    | .error _ => return (.internal, 0)
    | .ok ()   =>
      let (outcome, bytesRead) ← streamBodyToFile name maxBodyBytes 0 req.frames
      match outcome with
      | .overCap    => reject name .tooLarge bytesRead
      | .frameError => reject name .malformedFrame bytesRead
      | .writeError => reject name .internal bytesRead
      | .ok         => decode w name bytesRead

/-! ### The commit is a critical section -/

def Dir.names (dir : Dir) : Finset FileName := (dir.files.rows.map File.name).toFinset

/-- The entries that the commits of other handlers see. -/
def State.entries (s : State) (key : TraceKey) : Commit.Entries := (s.raw key).map Dir.names

/-- The partial is durable at its canonical place. -/
def Durable (s : State) (path : RawPath) (bytes : List UInt8) : Prop :=
  ∃ dir, s.raw path.key = some dir ∧ dir.synced = true ∧
    dir.files.find? (.utf8 path.name) = some ⟨.utf8 path.name, bytes, true⟩

section commitPartial

variable {s t u : State} {key : TraceKey} {name : String} {st st' : Commit.Stage} {dir : Dir}

@[simp] lemma entries_setRaw : (s.setRaw key dir).entries key = some dir.names := by
  simp [State.entries, State.setRaw]

lemma names_rename (name : FileName) (bytes : List UInt8) :
    (dir.rename name bytes).names = insert name dir.names := by
  ext name'
  have h : (dir.rename name bytes).files.HasKey name' ↔ dir.files.HasKey name' ∨ name' = name :=
    Table.hasKey_upsert
  simpa [Dir.names, Table.HasKey, or_comm] using h

lemma find?_rename (name : FileName) (bytes : List UInt8) :
    (dir.rename name bytes).files.find? name = some ⟨name, bytes, false⟩ := by
  rw [Dir.rename, Table.find?_upsert_self (a := File.mk name bytes false)]
  cases hfind : dir.files.find? name with
  | none => simp
  | some f =>
    obtain ⟨-, rfl⟩ := Table.find?_eq_some_iff.mp hfind
    simp

/-- A commit of the trace `key` that began in `s` has come to the stage `st`. -/
structure At (s : State) (key : TraceKey) (st : Commit.Stage) (t : State) : Prop where
  trace : ∃ es, (Commit.commitPartialUnder fun _ _ => False).Trace es (t.entries key) st
  queue : t.queue = s.queue
  log : t.log = s.log

lemma At.step {e : Commit.CommitEvent} (h : At s key st t)
    (hstep : Commit.CommitStep (t.entries key) st e (u.entries key) st')
    (hqueue : u.queue = t.queue) (hlog : u.log = t.log) : At s key st' u where
  trace := by
    obtain ⟨es, hes⟩ := h.trace
    exact ⟨_, hes.step hstep⟩
  queue := hqueue.trans h.queue
  log := hlog.trans h.log

/-- The commit has failed, or the process died in it. -/
def Aborted (s : State) (key : TraceKey) : Stop CommitError → State → Prop
  | .error e, t => At s key (.done (.error e)) t ∧ (e = .traceFull → t.tmp = s.tmp)
  | .crash, t   => t.log = s.log

lemma ensures_ensureTraceDir (s : State) (key : TraceKey) :
    Ensures s (ensureTraceDir key) (fun _ t => At s key .read t ∧ t.tmp = s.tmp)
      (Aborted s key) := by
  have hstart : At s key .ensure s := ⟨⟨[], .entry _⟩, rfl, rfl⟩
  have hentries : (s.setRaw key ((s.raw key).getD .empty)).entries key =
      some ((s.entries key).getD ∅) := by
    rw [entries_setRaw, State.entries]
    cases s.raw key with
    | none => rfl
    | some dir => rfl
  have hlate : At s key (.done (.error .tracesDir)) (s.setRaw key ((s.raw key).getD .empty)) :=
    hstart.step (by rw [hentries]; exact .ensureFailLate) rfl rfl
  have hearly : At s key (.done (.error .tracesDir)) s := hstart.step .ensureFail rfl rfl
  refine .bind (.syscall_orFail (Q := fun _ t => t = s.setRaw key ((s.raw key).getD .empty))
    (fun _ _ => rfl) nofun (fun c => ?_) fun c => ?_) ?_
  · split_ifs
    exacts [⟨hlate, nofun⟩, ⟨hearly, nofun⟩]
  · split_ifs
    exacts [rfl, rfl]
  · rintro _ _ rfl
    refine .query_orFail (fun _ _ => ⟨?_, rfl⟩) ⟨hlate, nofun⟩ rfl
    exact hstart.step (by rw [hentries]; exact .ensure) rfl rfl

lemma ensures_scanEntries {names : List FileName} {maxSeen : ℕ}
    (h : At s key (.scan names maxSeen) t) (htmp : t.tmp = s.tmp) :
    Ensures t (scanEntries maxSeen names) (fun m u => u = t ∧ At s key (.scan [] m) t)
      (Aborted s key) := by
  have hfail : Aborted s key (.error .tracesDir) t := ⟨h.step .nextFail rfl rfl, nofun⟩
  induction names generalizing maxSeen with
  | nil =>
    refine .bind (.query_orFail (Q := fun _ u => u = t) (fun _ _ => rfl) hfail h.log) ?_
    rintro _ _ rfl
    exact .pure ⟨rfl, h⟩
  | cons name names ih =>
    refine .bind (.query_orFail (Q := fun _ u => u = t) (fun _ _ => rfl) hfail h.log) ?_
    rintro _ _ rfl
    exact ih (h.step .next rfl rfl)

lemma ensures_nextBatchNumber (h : At s key .read t) (htmp : t.tmp = s.tmp) :
    Ensures t (nextBatchNumber key)
      (fun n u => u = t ∧ ∃ m, n = m + 1 ∧ At s key (.scan [] m) t) (Aborted s key) := by
  refine .bind (.query_orFail (Q := fun names u => u = t ∧ At s key (.scan names 0) t)
    ?_ ?_ h.log) ?_
  · intro names hnames
    cases hraw : t.raw key with
    | none =>
      rw [hraw] at hnames
      cases hnames
    | some dir =>
      rw [hraw] at hnames
      obtain rfl := Except.ok.inj hnames
      have hentries : t.entries key = some dir.names := by rw [State.entries, hraw]; rfl
      exact ⟨rfl, h.step (by rw [hentries]; exact .read rfl) rfl rfl⟩
  · exact ⟨h.step .readFail rfl rfl, nofun⟩
  · rintro names _ ⟨rfl, hscan⟩
    refine .bind (ensures_scanEntries hscan htmp) ?_
    rintro m _ ⟨rfl, hm⟩
    exact .pure ⟨rfl, m, rfl, hm⟩

/-- The partial has been renamed, and `synced` says what is durable: the file, and the directory. -/
structure Renamed (s : State) (name : String) (path : RawPath) (syncedFile syncedDir : Bool)
    (t : State) : Prop where
  tmp : t.tmp = Function.update s.tmp name none
  file : ∃ dir bytes, s.tmp name = some bytes ∧ t.raw path.key = some dir ∧
    dir.synced = syncedDir ∧
    dir.files.find? (.utf8 path.name) = some ⟨.utf8 path.name, bytes, syncedFile⟩

lemma ensures_call_orFail {α : Type} {run : State → Except IoError α × State} {e : CommitError}
    {Q : α → State → Prop} {E : Stop CommitError → State → Prop}
    (hrun : (∃ err, run t = (.error err, t)) ∨ ∃ a u, run t = (.ok a, u) ∧ Q a u)
    (hfail : E (.error e) t) (hcrash : E .crash t) :
    Ensures t (call run >>= orFail e) Q E := by
  refine .syscall_orFail (fun a ha => ?_) (fun err herr => ?_) (fun _ => hfail) fun _ => hcrash
  · rcases hrun with ⟨err, h⟩ | ⟨b, u, h, hQ⟩
    · simp [h] at ha
    · rw [h] at ha ⊢
      exact Except.ok.inj ha ▸ hQ
  · rcases hrun with ⟨err, h⟩ | ⟨b, u, h, hQ⟩
    · rw [h]
      exact hfail
    · simp [h] at herr

lemma ensures_rename {next : ℕ} (h : At s key (.rename next) t) (htmp : t.tmp = s.tmp) :
    Ensures t (call (·.rename name ⟨key, batchFileName next⟩) >>= orFail .rename)
      (fun _ u => At s key (.sync next) u ∧ Renamed s name ⟨key, batchFileName next⟩ false false u)
      (Aborted s key) := by
  refine ensures_call_orFail ?_ ⟨h.step .renameFail rfl rfl, nofun⟩ h.log
  rw [State.rename]
  cases hbytes : t.tmp name with
  | none => exact .inl ⟨_, rfl⟩
  | some bytes =>
    cases hraw : t.raw key with
    | none => exact .inl ⟨_, rfl⟩
    | some dir =>
      refine .inr ⟨_, _, rfl, h.step (e := .rename next) ?_ rfl rfl, ?_, ?_⟩
      · rw [entries_setRaw, names_rename, State.entries, hraw]
        exact .rename
      · rw [← htmp]
        rfl
      · exact ⟨_, bytes, htmp ▸ hbytes, Function.update_self .., rfl, find?_rename _ _⟩

lemma onDir_eq {f : Dir → Dir} (hraw : t.raw key = some dir) :
    t.onDir key f = (.ok (), t.setRaw key (f dir)) := by
  rw [State.onDir, hraw]

lemma names_syncFile (name : FileName) : (dir.syncFile name).names = dir.names := by
  ext name'
  have h : (dir.syncFile name).files.HasKey name' ↔ dir.files.HasKey name' := by
    simp [Dir.syncFile]
  simpa [Dir.names, Table.HasKey] using h

/-- Syncing does not change the entries. -/
lemma At.setRaw (h : At s key st t) {dir' : Dir} (hraw : t.raw key = some dir)
    (hnames : dir'.names = dir.names) : At s key st (t.setRaw key dir') where
  trace := by
    rw [entries_setRaw, hnames]
    simpa [State.entries, hraw] using h.trace
  queue := h.queue
  log := h.log

lemma ensures_fsyncFile {next : ℕ} {file : String} (h : At s key (.sync next) t)
    (hren : Renamed s name ⟨key, file⟩ false false t) :
    Ensures t (fsyncFile ⟨key, file⟩)
      (fun _ u => At s key (.sync next) u ∧ Renamed s name ⟨key, file⟩ true false u)
      (Aborted s key) := by
  have hfail : Aborted s key (.error .fsync) t := ⟨h.step .syncFail rfl rfl, nofun⟩
  refine .bind (.query_orFail (Q := fun _ u => u = t) (fun _ _ => rfl) hfail h.log) ?_
  rintro _ _ rfl
  obtain ⟨dir, bytes, hbytes, hraw, hdir, hfile⟩ := hren.file
  refine ensures_call_orFail (.inr ⟨_, _, onDir_eq hraw, h.setRaw hraw (names_syncFile _), ?_⟩)
    hfail h.log
  refine ⟨hren.tmp, _, bytes, hbytes, Function.update_self .., hdir, ?_⟩
  rw [Dir.syncFile, Table.find?_modify_self, hfile]
  rfl

lemma ensures_fsyncDir {next : ℕ} {file : String} (h : At s key (.sync next) t)
    (hren : Renamed s name ⟨key, file⟩ true false t) :
    Ensures t (fsyncDir key)
      (fun _ u => At s key (.done (.ok next)) u ∧ Renamed s name ⟨key, file⟩ true true u)
      (Aborted s key) := by
  have hfail : Aborted s key (.error .fsync) t := ⟨h.step .syncFail rfl rfl, nofun⟩
  refine .bind (.query_orFail (Q := fun _ u => u = t) (fun _ _ => rfl) hfail h.log) ?_
  rintro _ _ rfl
  obtain ⟨dir, bytes, hbytes, hraw, hdir, hfile⟩ := hren.file
  have hsync : At s key (.done (.ok next)) _ := h.step .sync rfl rfl
  refine ensures_call_orFail (.inr ⟨_, _, onDir_eq hraw, hsync.setRaw hraw rfl, ?_⟩) hfail h.log
  exact ⟨hren.tmp, _, bytes, hbytes, Function.update_self .., rfl, hfile⟩

/-- A commit that returns `Ok` has made the partial durable. It took the steps of a critical section
of `commit_partial`, also when it failed. -/
theorem ensures_commitPartial (s : State) (name : String) (key : TraceKey) :
    Ensures s (commitPartial name key)
      (fun path t => path.key = key ∧ (∃ n, At s key (.done (.ok n)) t) ∧
        Renamed s name path true true t) (Aborted s key) := by
  refine .bind (ensures_ensureTraceDir s key) ?_
  rintro _ t ⟨hread, htmp⟩
  refine .bind (ensures_nextBatchNumber hread htmp) ?_
  rintro next _ ⟨rfl, m, rfl, hscan⟩
  split_ifs with hmax
  · exact .fail ⟨hscan.step (.full hmax) rfl rfl, fun _ => htmp⟩
  · refine .bind (ensures_rename (hscan.step (.choose hmax) rfl rfl) htmp) ?_
    rintro _ u₁ ⟨hsync₁, hren₁⟩
    refine .bind (ensures_fsyncFile hsync₁ hren₁) ?_
    rintro _ u₂ ⟨hsync₂, hren₂⟩
    refine .bind (ensures_fsyncDir hsync₂ hren₂) ?_
    rintro _ u₃ ⟨hdone, hren₃⟩
    exact .pure ⟨rfl, ⟨_, hdone⟩, hren₃⟩

end commitPartial

/-! ### The body -/

/-- The data frames of a body, one after the other. -/
def body (frames : List (Option Frame)) : List UInt8 :=
  frames.flatMap fun
    | some (.data data) => data
    | _                 => []

/-- `s` with the bytes `bs` streamed to the partial `name`. -/
def State.streamed (s : State) (name : String) (bs : List UInt8) : State :=
  { s.setTmp name (some bs) with log := { s.log with written := s.log.written + bs.length } }

section stream

variable {s : State} {name : String} {cap : ℕ}

lemma append_streamed (bs data : List UInt8) :
    (s.streamed name bs).append name data = s.streamed name (bs ++ data) := by
  simp [State.append, State.streamed, State.setTmp, Nat.add_assoc]

/-- Whatever ends the loop, the partial holds no more bytes than the cap allows. -/
lemma ensures_streamBodyToFile (frames : List (Option Frame)) {bs : List UInt8}
    (hbs : bs.length ≤ cap) :
    Ensures (s.streamed name bs) (streamBodyToFile name cap bs.length frames)
      (fun r t => ∃ bs', t = s.streamed name bs' ∧ bs'.length ≤ cap ∧
        (r.1 = .ok → none ∉ frames ∧ bs' = bs ++ body frames))
      fun _ t => ∃ bs', t = s.streamed name bs' ∧ bs'.length ≤ cap := by
  induction frames generalizing bs with
  | nil => exact .pure ⟨bs, rfl, hbs, fun _ => ⟨nofun, by simp [body]⟩⟩
  | cons frame frames ih =>
    match frame with
    | none => exact .pure ⟨bs, rfl, hbs, nofun⟩
    | some .trailers =>
      refine (ih hbs).mono ?_ fun _ _ h => h
      rintro r t ⟨bs', rfl, hbs', hok⟩
      exact ⟨bs', rfl, hbs', by simpa [body] using hok⟩
    | some (.data data) =>
      rw [streamBodyToFile]
      split_ifs with hcap
      · exact .pure ⟨bs, rfl, hbs, nofun⟩
      · have hlen : (bs ++ data).length ≤ cap := by simpa using hcap
        have hcut : ∀ k, ∃ bs', (s.streamed name bs).append name (data.take k) =
            s.streamed name bs' ∧ bs'.length ≤ cap := by
          intro k
          refine ⟨_, append_streamed _ _, le_trans ?_ hlen⟩
          simp
        refine .bind (.syscall (P := fun t => ∃ bs', t = s.streamed name bs' ∧ bs'.length ≤ cap)
          ⟨_, append_streamed _ _, hlen⟩ fun c => hcut c.kept) ?_
        rintro (err | _) t ⟨⟨bs', rfl, hbs'⟩, hr⟩
        · exact .pure ⟨bs', rfl, hbs', nofun⟩
        · rcases hr with hr | ⟨-, hr⟩
          · cases hr
          · rw [hr, append_streamed, ← List.length_append]
            refine (ih hlen).mono ?_ fun _ _ h => h
            rintro r t ⟨bs', rfl, hbs', hok⟩
            exact ⟨bs', rfl, hbs', by simpa [body] using hok⟩

end stream

/-! ### The answer -/

/-- What must hold of a request before its body is decoded. -/
def Admissible (cap : ℕ) (req : Request) : Prop :=
  (∀ declared, declaredContentLength req = some declared → declared ≤ cap) ∧
    none ∉ req.frames ∧ (body req.frames).length ≤ cap

/-- The handler that began in `s` has answered in `t`. -/
structure Answered (w : Server.Wire) (cap : ℕ) (name : String) (req : Request) (s : State)
    (answer : Response) (t : State) : Prop where
  accepted : answer = .ok → ∃ m path, w.parseMeta (body req.frames) = some m ∧
    m.schemaVersion = 1 ∧ path.key = w.fromMeta m ∧
    t.queue = { s.queue with items := s.queue.items ++ [⟨path, w.fromMeta m⟩] } ∧
    Durable t path (body req.frames)
  refused : answer ≠ .ok → t.queue = s.queue
  removed : s.tmp name = none → t.log.cleanupFailed = false →
    (∀ key, answer ≠ .traceFull key) → t.tmp name = none
  kept : ∀ key, answer = .traceFull key → t.tmp name = some (body req.frames)
  decoded : t.log.decoded = s.log.decoded ∨
    t.log.decoded = s.log.decoded ++ [body req.frames] ∧ Admissible cap req
  written : t.log.written ≤ s.log.written + cap

section answer

variable {w : Server.Wire} {cap : ℕ} {name : String} {req : Request} {s t : State}
  {answer : Response} {bytesRead : ℕ}

/-- Only the partial goes, unless its removal fails. -/
lemma ensures_removePartial (t : State) (name : String) :
    Ensures t (removePartial name)
      (fun _ u => u.queue = t.queue ∧ (u.log.cleanupFailed = false → u.tmp name = none) ∧
        u.log.decoded = t.log.decoded ∧ u.log.written = t.log.written)
      fun _ u => u.log.written = t.log.written := by
  have hunlink : (t.unlink name).2.queue = t.queue ∧ (t.unlink name).2.log = t.log ∧
      (t.unlink name).2.tmp name = none ∧ (t.unlink name).1 ≠ .error .other := by
    rw [State.unlink]
    split
    · exact ⟨rfl, rfl, ‹_›, nofun⟩
    · exact ⟨rfl, rfl, Function.update_self .., nofun⟩
  obtain ⟨hqueue, hlog, htmp, hne⟩ := hunlink
  refine .bind (.mono (.syscall (P := fun u => u.queue = t.queue ∧ u.log = t.log)
    ⟨hqueue, hlog⟩ fun _ => ⟨rfl, rfl⟩) (fun _ _ h => h) fun _ _ h => by rw [h.2]) ?_
  rintro r u ⟨⟨hq, hl⟩, rfl | ⟨rfl, rfl⟩⟩
  · exact .act ⟨hq, nofun, by rw [hl], by rw [hl]⟩
  · have hpure : Ensures (t.unlink name).2 (pure () : Handler Unit)
        (fun _ u => u.queue = t.queue ∧ (u.log.cleanupFailed = false → u.tmp name = none) ∧
          u.log.decoded = t.log.decoded ∧ u.log.written = t.log.written)
        fun _ u => u.log.written = t.log.written :=
      .pure ⟨hq, fun _ => htmp, by rw [hl], by rw [hl]⟩
    match hres : (t.unlink name).1 with
    | .ok _ => exact hpure
    | .error .notFound => exact hpure
    | .error .other => exact absurd hres hne

lemma ensures_reject (hok : answer ≠ .ok) (hfull : ∀ key, answer ≠ .traceFull key)
    (hqueue : t.queue = s.queue)
    (hdecoded : t.log.decoded = s.log.decoded ∨
      t.log.decoded = s.log.decoded ++ [body req.frames] ∧ Admissible cap req)
    (hwritten : t.log.written ≤ s.log.written + cap) :
    Ensures t (reject name answer bytesRead) (fun r u => Answered w cap name req s r.1 u)
      fun _ u => u.log.written ≤ s.log.written + cap := by
  refine .bind ((ensures_removePartial t name).mono (fun _ _ h => h) fun _ _ h => h ▸ hwritten) ?_
  rintro _ u ⟨hq, hgone, hd, hw⟩
  refine .pure ⟨fun h => absurd h hok, fun _ => hq.trans hqueue, fun _ h _ => hgone h,
    fun key h => absurd h (hfull key), ?_, hw ▸ hwritten⟩
  rwa [hd]

/-- From the reserved slot on: the permit is used up or given back. -/
lemma ensures_commit {m : Meta} (hadm : Admissible cap req)
    (hmeta : w.parseMeta (body req.frames) = some m) (hversion : m.schemaVersion = 1)
    (htmp : t.tmp name = some (body req.frames))
    (hqueue : t.queue = { s.queue with reserved := s.queue.reserved + 1 })
    (hdecoded : t.log.decoded = s.log.decoded ++ [body req.frames])
    (hwritten : t.log.written ≤ s.log.written + cap) :
    Ensures t (commit w name m bytesRead) (fun r u => Answered w cap name req s r.1 u)
      fun _ u => u.log.written ≤ s.log.written + cap := by
  have hcommit := ensures_commitPartial t name (w.fromMeta m)
  refine .bind (.attempt (R := fun r u => match r with
    | .ok path => path.key = w.fromMeta m ∧ (∃ n, At t (w.fromMeta m) (.done (.ok n)) u) ∧
      Renamed t name path true true u
    | .error e => Aborted t (w.fromMeta m) (.error e) u) hcommit (fun _ _ h => h) (fun _ _ h => h)
    fun u (h : u.log = t.log) => by rwa [h]) ?_
  rintro (e | path) u h
  · obtain ⟨hat, hfull⟩ := h
    have hq : u.queue = _ := hat.queue.trans hqueue
    by_cases he : e = .traceFull
    · subst he
      refine .bind (Q := fun _ v => v = { u with queue := s.queue }) (.act ?_) ?_
      · simp [hq]
      rintro _ _ rfl
      refine .pure ⟨nofun, fun _ => rfl, fun _ _ h => absurd rfl (h _), fun _ _ => ?_, ?_, ?_⟩
      · rw [hfull rfl, htmp]
      · exact .inr ⟨by rw [hat.log, hdecoded], hadm⟩
      · rwa [hat.log]
    · have hrest : Ensures u (do
          dropPermit
          reject name .internal bytesRead) (fun r u => Answered w cap name req s r.1 u)
          fun _ u => u.log.written ≤ s.log.written + cap := by
        refine .bind (Q := fun _ v => v = { u with queue := s.queue }) (.act ?_) ?_
        · simp [hq]
        rintro _ _ rfl
        refine ensures_reject nofun nofun rfl (.inr ⟨?_, hadm⟩) ?_
        · rw [hat.log, hdecoded]
        · rwa [hat.log]
      cases e with
      | traceFull => exact absurd rfl he
      | tracesDir | rename | fsync => exact hrest
  · obtain ⟨hkey, ⟨n, hat⟩, hren⟩ := h
    obtain ⟨dir, bytes, hbytes, hraw, hdir, hfile⟩ := hren.file
    obtain rfl : body req.frames = bytes := Option.some.inj (htmp.symm.trans hbytes)
    have hq : u.queue = _ := hat.queue.trans hqueue
    refine .bind (Q := fun _ v => v = { u with queue := { s.queue with
      items := s.queue.items ++ [⟨path, w.fromMeta m⟩] } }) (.act ?_) ?_
    · simp [hq]
    rintro _ _ rfl
    refine .pure ⟨fun _ => ⟨m, path, hmeta, hversion, hkey, rfl, dir, hraw, hdir, hfile⟩,
      fun h => absurd rfl h, fun _ _ _ => ?_, nofun, .inr ⟨?_, hadm⟩, ?_⟩
    · rw [show _ = _ from hren.tmp, Function.update_self]
    · rw [hat.log, hdecoded]
    · rwa [hat.log]

/-- A slot is reserved, or the queue has none. -/
lemma ensures_tryReserve {E : Stop Empty → State → Prop} (hqueue : t.queue = s.queue) :
    Ensures t tryReserve (fun r u => u.tmp = t.tmp ∧ u.log = t.log ∧
      u.queue = bif r then { s.queue with reserved := s.queue.reserved + 1 } else s.queue) E := by
  rw [← hqueue]
  refine .act ?_
  split_ifs
  · exact ⟨rfl, rfl, rfl⟩
  · exact ⟨rfl, rfl, rfl⟩

/-- From the streamed body on. -/
lemma ensures_decode (hadm : Admissible cap req) :
    Ensures (s.streamed name (body req.frames)) (decode w name bytesRead)
      (fun r t => Answered w cap name req s r.1 t)
      fun _ t => t.log.written ≤ s.log.written + cap := by
  have hwritten : (s.streamed name (body req.frames)).log.written ≤ s.log.written + cap :=
    Nat.add_le_add_left hadm.2.2 _
  refine .bind (.mono .query (fun _ _ h => h) fun _ _ h => h ▸ hwritten) ?_
  rintro (_ | _) t ⟨rfl, -⟩
  · exact ensures_reject nofun nofun rfl (.inl rfl) hwritten
  refine .bind (.mono .query (fun _ _ h => h) fun _ _ h => h ▸ hwritten) ?_
  rintro (_ | bytes) t ⟨rfl, hbytes⟩
  · exact ensures_reject nofun nofun rfl (.inl rfl) hwritten
  have htmp : (s.streamed name (body req.frames)).tmp name = some (body req.frames) :=
    Function.update_self ..
  obtain rfl : bytes = body req.frames := by
    rw [htmp] at hbytes
    exact Except.ok.inj (hbytes.resolve_left nofun)
  -- `parse_meta` has seen the body from here on.
  refine .bind (Q := fun r t => r = w.parseMeta (body req.frames) ∧
    t.tmp name = some (body req.frames) ∧ t.queue = s.queue ∧
    t.log.decoded = s.log.decoded ++ [body req.frames] ∧
    t.log.written ≤ s.log.written + cap) (.act ⟨rfl, htmp, rfl, rfl, hwritten⟩) ?_
  rintro r t ⟨rfl, htmp, hqueue, hdecoded, hwritten⟩
  have hdec := Or.inr (a := t.log.decoded = s.log.decoded) (And.intro hdecoded hadm)
  cases hmeta : w.parseMeta (body req.frames) with
  | none => exact ensures_reject nofun nofun hqueue hdec hwritten
  | some m =>
    by_cases hversion : m.schemaVersion = 1
    · simp only [hversion, ne_eq, not_true_eq_false, if_false]
      refine .bind (ensures_tryReserve hqueue) ?_
      rintro (_ | _) u ⟨hu, hl, hq⟩
      · exact ensures_reject nofun nofun hq (hl ▸ hdec) (hl ▸ hwritten)
      · exact ensures_commit hadm hmeta hversion (hu ▸ htmp) hq (hl ▸ hdecoded) (hl ▸ hwritten)
    · simp only [hversion, ne_eq, not_false_eq_true, if_true]
      exact ensures_reject nofun nofun hqueue hdec hwritten

/-- A partial is created, or nothing happens. -/
lemma ensures_openPartial (s : State) (name : String) :
    Ensures s (openPartial name)
      (fun r u => match r with
        | .error _ => u = s
        | .ok _    => u = s.streamed name [])
      fun _ u => u.log.written ≤ s.log.written + cap := by
  rw [openPartial, call]
  refine .syscall_cases ?_ (fun _ => ?_) fun _ => ?_
  · rw [State.createNew]
    cases s.tmp name with
    | none => rfl
    | some _ => rfl
  · rfl
  · exact Nat.le_add_right _ _

theorem ensures_ingest (w : Server.Wire) (cap : ℕ) (name : String) (req : Request) (s : State) :
    Ensures s (ingest w cap name req) (fun r t => Answered w cap name req s r.1 t)
      fun _ t => t.log.written ≤ s.log.written + cap := by
  rw [ingest]
  split_ifs with hdeclared
  · refine .pure ⟨nofun, fun _ => rfl, fun h _ _ => h, nofun, .inl rfl, Nat.le_add_right _ _⟩
  · have hadm : ∀ declared, declaredContentLength req = some declared → declared ≤ cap := by
      intro declared h
      simpa [h] using hdeclared
    have hnone : Answered w cap name req s .internal s :=
      ⟨nofun, fun _ => rfl, fun h _ _ => h, nofun, .inl rfl, Nat.le_add_right _ _⟩
    refine .bind (ensures_openPartial s name) ?_
    rintro (_ | _) u h
    · obtain rfl : u = s := h
      exact .pure hnone
    · obtain rfl : u = s.streamed name [] := h
      refine .bind ((ensures_streamBodyToFile req.frames (Nat.zero_le cap)).mono
        (fun _ _ h => h) ?_) ?_
      · rintro _ t ⟨bs, rfl, hbs⟩
        exact Nat.add_le_add_left hbs _
      · rintro ⟨outcome, bytesRead⟩ t ⟨bs, rfl, hbs, hok⟩
        have hwritten : (s.streamed name bs).log.written ≤ s.log.written + cap :=
          Nat.add_le_add_left hbs _
        cases outcome with
        | ok =>
          obtain ⟨hframes, rfl⟩ := hok rfl
          exact ensures_decode ⟨hadm, hframes, hbs⟩
        | overCap | frameError | writeError =>
          exact ensures_reject nofun nofun rfl (.inl rfl) hwritten

/-- Whatever the request, the occupancy of the queue and the calls that fail: the answer is 200 if
and only if one submission is enqueued, for the trace that the `meta` block of the body names,
and its file, durable and in the raw directory of this trace, holds the data frames of the body;
with any other answer the queue and its permits are as before; the partial is gone with every answer
but `trace_full`, if its removal does not fail; a body is decoded only if it is admissible; and
never are more bytes written than the cap allows. -/
theorem ingest_law (w : Server.Wire) (cap : ℕ) (name : String) (req : Request) (s : State) :
    Ensures s (ingest w cap name req)
      (fun r t =>
        (r.1.status = 200 ↔ ∃ m path, w.parseMeta (body req.frames) = some m ∧
          m.schemaVersion = 1 ∧ path.key = w.fromMeta m ∧
          t.queue = { s.queue with items := s.queue.items ++ [⟨path, w.fromMeta m⟩] } ∧
          Durable t path (body req.frames)) ∧
        (r.1.status ≠ 200 → t.queue = s.queue) ∧
        (s.tmp name = none → t.log.cleanupFailed = false → (∀ key, r.1 ≠ .traceFull key) →
          t.tmp name = none) ∧
        (t.log.decoded ≠ s.log.decoded →
          t.log.decoded = s.log.decoded ++ [body req.frames] ∧ Admissible cap req) ∧
        t.log.written ≤ s.log.written + cap)
      fun _ t => t.log.written ≤ s.log.written + cap := by
  refine (ensures_ingest w cap name req s).mono ?_ fun _ _ h => h
  rintro ⟨answer, bytesRead⟩ t h
  have hstatus : answer.status = 200 ↔ answer = .ok := by
    cases answer <;> simp [Response.status]
  refine ⟨?_, fun hne => h.refused fun hok => hne (hstatus.mpr hok), h.removed,
    fun hne => h.decoded.resolve_left hne, h.written⟩
  dsimp only
  rw [hstatus]
  refine ⟨h.accepted, ?_⟩
  rintro ⟨m, path, -, -, -, hqueue, -⟩
  by_contra hne
  have hitems := congrArg (List.length ∘ Queue.items) (hqueue.symm.trans (h.refused hne))
  simp at hitems

/-- Two data frames and trailers, with a slot free. -/
example : ∃ w t,
    ingest ⟨fun bs => if bs = [1, 2, 3] then some { (default : Meta) with schemaVersion := 1 }
      else none, fun _ => none, fun _ => default⟩ 3 "a"
      ⟨some [51], [some (.data [1]), some (.data [2, 3]), some .trailers]⟩
      ⟨⟨fun _ => none, fun _ => none, ⟨1, [], 0, false⟩, {}⟩, []⟩ = .ok (.ok, 3) ⟨t, w⟩ :=
  ⟨_, _, rfl⟩

end answer

/-! ### What is acknowledged, and what is decoded -/

open Serde

/-- The wire decoder over a data format. -/
def wire {δ : Type} (f : Format δ) (fromMeta : Meta → TraceKey) : Server.Wire where
  parseMeta := PhpTreeViz.parseMeta f
  parseBatch := parseBatch f
  fromMeta := fromMeta

/-- A body that is answered with 200 has a `meta` block of schema version 1. That is the `meta`
block of whatever `parse_batch` decodes from it, which is something exactly if the body also has a
`dict` and `calls`. -/
theorem parseBatch_iff_of_ok {δ : Type} (f : Format δ) (fromMeta : Meta → TraceKey) (cap : ℕ)
    (name : String) (req : Request) (s : State) :
    Ensures s (ingest (wire f fromMeta) cap name req)
      (fun r _ => r.1.status = 200 → ∃ m, PhpTreeViz.parseMeta f (body req.frames) = some m ∧
        m.schemaVersion = 1 ∧ ∀ b, parseBatch f (body req.frames) = some b ↔
          b.metaBlock = m ∧ HasDictAndCalls f (body req.frames) b.dict b.calls)
      fun _ _ => True := by
  refine (ensures_ingest (wire f fromMeta) cap name req s).mono ?_ fun _ _ _ => trivial
  rintro ⟨answer, bytesRead⟩ t h hstatus
  have hok : answer = .ok := by
    cases answer with
    | ok => rfl
    | _ => simp [Response.status] at hstatus
  obtain ⟨m, -, hmeta, hversion, -⟩ := h.accepted hok
  exact ⟨m, hmeta, hversion, fun b => parseBatch_iff_of_parseMeta hmeta⟩

/-- `{"meta": {"schema_version": 1, ..}}` -/
def metaOnly : Msg :=
  .map [(.str "meta", .map [(.str "schema_version", .uint 1), (.str "trace_id", .str ""),
    (.str "host", .str ""), (.str "pid", .uint 0), (.str "start_time", .uint 0),
    (.str "sapi", .str ""), (.str "uri_or_script", .str ""), (.str "dropped_records", .uint 0)])]

def fixstr (s : String) : List UInt8 :=
  UInt8.ofNat (160 + s.length) :: s.toList.map fun c => UInt8.ofNat c.toNat

/-- The bytes of `metaOnly` -/
def metaOnlyBytes : List UInt8 :=
  129 :: fixstr "meta" ++ 136 :: fixstr "schema_version" ++ 1 :: fixstr "trace_id" ++ 160 ::
    fixstr "host" ++ 160 :: fixstr "pid" ++ 0 :: fixstr "start_time" ++ 0 :: fixstr "sapi" ++
    160 :: fixstr "uri_or_script" ++ 160 :: fixstr "dropped_records" ++ [0]

def metaOnlyFormat : Format Msg :=
  Msg.format fun bytes => if bytes = metaOnlyBytes then some metaOnly else none

/-- A body without `dict` and `calls` is answered with 200 and never decoded. -/
theorem not_parseBatch_of_ok :
    ¬ ∀ (f : Format Msg) (fromMeta : Meta → TraceKey) (cap : ℕ) (name : String) (req : Request)
      (s : State), Ensures s (ingest (wire f fromMeta) cap name req)
        (fun r _ => r.1.status = 200 → ∃ m b, PhpTreeViz.parseMeta f (body req.frames) = some m ∧
          parseBatch f (body req.frames) = some b ∧ b.metaBlock = m)
        fun _ _ => True := by
  intro hall
  have hrun : ∃ w, ingest (wire metaOnlyFormat fun _ => default) metaOnlyBytes.length "a"
      ⟨none, [some (.data metaOnlyBytes)]⟩
      ⟨⟨fun _ => none, fun _ => none, ⟨1, [], 0, false⟩, {}⟩, []⟩ =
        .ok (.ok, metaOnlyBytes.length) w := ⟨_, rfl⟩
  obtain ⟨w, hrun⟩ := hrun
  have hend := hall metaOnlyFormat (fun _ => default) metaOnlyBytes.length "a"
    ⟨none, [some (.data metaOnlyBytes)]⟩ ⟨fun _ => none, fun _ => none, ⟨1, [], 0, false⟩, {}⟩ []
  rw [hrun] at hend
  obtain ⟨m, b, -, hbatch, -⟩ := hend rfl
  have hnone : parseBatch metaOnlyFormat metaOnlyBytes = none := rfl
  have hbody : body [some (.data metaOnlyBytes)] = metaOnlyBytes := by simp [body]
  rw [hbody, hnone] at hbatch
  cases hbatch

end Ingest

end PhpTreeViz
