import Mathlib.Data.List.GetD
import LowDB.Storage.Disk
import LowDB.Transaction.Oracle

/-! # The engine

`engine/src/lib.rs`, `storage/src/lib.rs`, `storage/src/state.rs`, `transaction/src/*.rs`: one process
at a time on a directory of logs and tables, which a crash or a shutdown leaves as it is and
`DB::open` takes up again.

Every piece of code that runs without anything else being able to observe its middle is one action
of `step`: an atomic load or store, what is done under one lock, one record appended and synced, one
file renamed into place or removed.  All the tasks of a process interleave freely between actions.
The locks are part of the state: `CommitLock` is how far the task has come that holds the commit lock
(a commit or `DB::flush`), `FlushLock` how far the one that holds the flush lock.  Notifications,
back-pressure and retries only decide when a task goes on, so they are left out here
(`LowDB.Engine.Lifetime` has them), as is the sum of heap sizes that `is_full` compares: a memtable may
be full at any time.

An append may fail, leaving anything in the file and in the buffer of the writer; so may the creation
of a log, the writing of a table up to its rename, and the removal of a log.  Failures after the rename
(the sync of the directory, the opening of the new table) are not modelled here; for them see
`LowDB.Storage.PowerFailures`.  Nor are futures of commits that are dropped halfway: a commit goes on to
its end or to a crash.

No code reads the fields called ghost fields: `Log.sets` and `Log.tail`, the records a log holds;
`Dir.hist`, the versions whose commit record has been written; `Dir.refused`, whether an append has
ever failed or been refused; and in a process the published writes, the timestamps of the failed
commits and the memtables written to tables, and in a reader the memtables retired between its two
steps of creation. -/

namespace LowDB

/-! ### Files -/

/-- A log file, with the calls whose records it holds (ghost). -/
structure Log where
  id : ℕ
  bytes : Bytes
  sets : List SetBatch
  tail : Tail

/-- The file as `Wal` sees it. -/
def Log.file (l : Log) : LogFile := (l.id, l.bytes)

/-- A committed version: user key, timestamp and text. -/
abbrev Version := Str × ℕ × Option Str

def Entry.version (e : Entry) : Version := (e.1.user, e.1.seq.toNat, e.2.text)

/-! ### A process -/

/-- `State`, by the ids of its memtables.  The active log has the id of the active memtable. -/
structure State where
  memTable : ℕ
  frozen : List ℕ

/-- All memtables, in the order of `State::get_snap`. -/
def State.ids (st : State) : List ℕ := st.memTable :: st.frozen

/-- What `Oracle::commit` was called with; `handle` is the transaction, if it is not a plain set. -/
structure Commit where
  tx : UInt64
  handle : Option ℕ
  buffer : Buffer

/-- What the holder of the commit lock has done last. -/
inductive CommitLock where
  | free
  /-- no conflict found -/
  | checked (c : Commit)
  /-- timestamp taken -/
  | stamped (c : Commit) (ts : ℕ)
  /-- `TxBegin` appended -/
  | begun (c : Commit) (ts : ℕ)
  /-- batch appended, and its first `n` entries put into the memtable -/
  | logged (c : Commit) (ts n : ℕ)
  /-- `TxCommit` appended -/
  | sealed (c : Commit) (ts : ℕ)
  /-- keys entered in the map of recent writes -/
  | recorded (c : Commit) (ts : ℕ)
  | published (c : Commit) (ts : ℕ)
  /-- oldest timestamp in use taken -/
  | watermarked (c : Commit) (ts watermark : ℕ)
  | pruned (c : Commit) (ts : ℕ)
  /-- `Oracle::freeze` with a memtable that is not empty -/
  | freezing
  /-- `force_freeze` with its new log, for the commit `c` or for `Oracle::freeze` -/
  | created (c : Option (Commit × ℕ)) (id : ℕ)

/-- What the holder of the flush lock has done last. -/
inductive FlushLock where
  | free
  /-- oldest frozen memtable taken -/
  | picked (mt : ℕ)
  /-- table renamed into place -/
  | renamed (mt : ℕ) (table : Table)
  /-- `l0` done -/
  | installed (mt : ℕ)
  /-- memtable retired -/
  | retired (mt : ℕ)

inductive Reader.Kind where
  | snapshot
  | transaction (tx : UInt64)
  /-- a call of `DB::get` -/
  | get (key : Str)

/-- A handle, or a call of `DB::get`. -/
structure Reader where
  kind : Reader.Kind
  readTs : ℕ
  /-- none until `Storage::snapshot` -/
  state : Option State
  buffer : Buffer
  /-- `commit` has been called, which consumes the transaction -/
  consumed : Bool
  /-- keys looked up in memory without an answer, still to be looked up in the tables -/
  pending : List Str
  /-- ghost: memtables retired before `state` was captured -/
  retired : List (List Entry)

/-- Counted in the table of timestamps in use. -/
def Reader.registered (r : Reader) : Bool :=
  match r.kind with
  | .get _ => false
  | _ => true

structure Process where
  oracle : Oracle
  /-- the memtables, by id -/
  mems : ℕ → MemTable
  state : State
  /-- what the writer of the active log has buffered -/
  walBuf : Bytes
  /-- `Wal::id` -/
  nextWal : ℕ
  storage : DiskStorage
  commit : CommitLock
  flush : FlushLock
  /-- by handle; none once dropped -/
  readers : List (Option Reader)
  /-- ghost: keys written by the published commits of this process -/
  published : List (Str × ℕ)
  /-- ghost: timestamps of commits that have returned an error -/
  failed : List ℕ
  /-- ghost: memtables written to tables -/
  written : List ℕ

/-- The directory, with what has been done in it. -/
structure Dir where
  wal : List Log
  ss : List TableFile
  /-- ghost -/
  hist : List Version
  /-- ghost -/
  refused : Bool

structure Sys where
  dir : Dir
  proc : Option Process

/-- An empty directory. -/
def Sys.init : Sys := ⟨⟨[], [], [], false⟩, none⟩

namespace Dir

def logBytes (d : Dir) (id : ℕ) : Bytes := ((d.wal.find? fun l => l.id = id).map Log.bytes).getD []

/-- `f` on the log with the id. -/
def alterLog (d : Dir) (id : ℕ) (f : Log → Log) : Dir :=
  { d with wal := d.wal.map fun l => if l.id = id then f l else l }

/-- With a new, empty log. -/
def addLog (d : Dir) (id : ℕ) : Dir := { d with wal := d.wal ++ [⟨id, [], [], .none⟩] }

end Dir

/-! ### Actions -/

inductive Act where
  | open
  /-- the process ends, by a crash or after `DB::close` -/
  | crash
  | set (key value : Str)
  | commit (handle : ℕ)
  | stamp
  | append
  | appendFails (written buffered : Bytes)
  | put
  | record
  | publish
  | watermark
  | prune
  | finish
  | freeze
  | createLog
  | createLogFails
  | swap
  | pick
  | writeTable
  | writeTableFails
  | install
  | retire
  | removeLog
  | removeLogFails
  | snapshot
  | transaction
  | get (key : Str)
  | capture (reader : ℕ)
  | write (handle : ℕ) (key : Str) (value : Value)
  | search (reader : ℕ) (key : Str)
  | searchTables (reader : ℕ) (key : Str)
  | drop (handle : ℕ)
  | cancel (reader : ℕ)

/-- What an action returns to the task that called. -/
inductive Out where
  | nothing
  | opened (r : DbResult Unit)
  /-- of `DB::set` or `Transaction::commit` -/
  | committed (r : DbResult Unit)
  /-- of `Oracle::freeze` -/
  | froze (r : DbResult Unit)
  /-- of `Storage::flush_oldest` -/
  | flushed (r : DbResult Bool)
  /-- of a lookup -/
  | got (r : DbResult (Option Str))

/-! ### Reading -/

/-- The first answer of the memtables. -/
def searchMems (key : Str) (seq : ℕ) : List MemTable → Lookup
  | [] => .absent
  | t :: ts =>
    match t.getSnap key seq with
    | .absent => searchMems key seq ts
    | lookup => lookup

/-- What a lookup returns: `Found(value) => Ok(Some(value)), _ => Ok(None)`. -/
def Lookup.value : Lookup → Option Str
  | found s => some s
  | _ => none

namespace Reader

def started (kind : Kind) (readTs : ℕ) : Reader where
  kind := kind
  readTs := readTs
  state := none
  buffer := .empty
  consumed := false
  pending := []
  retired := []

/-- A call of `DB::get` ends with its answer, a handle does not. -/
def answered (r : Reader) : Option Reader :=
  match r.kind with
  | .get _ => none
  | _ => some r

/-- May look `key` up. -/
def asks (r : Reader) (key : Str) : Bool :=
  match r.kind with
  | .get k => k = key
  | _ => !r.consumed

/-- A memtable retired before the state is captured is missed. -/
def miss (es : List Entry) (r : Reader) : Reader :=
  match r.state with
  | none => { r with retired := es :: r.retired }
  | some _ => r

end Reader

namespace CommitLock

/-- The transaction whose commit is under way. -/
def handle : CommitLock → Option ℕ
  | checked c | stamped c _ | begun c _ | logged c _ _ | sealed c _ | recorded c _
  | published c _ | watermarked c _ _ | pruned c _ => c.handle
  | created (some (c, _)) _ => c.handle
  | _ => none

/-- Holds the state for reading (`set_batch`) or the lock for changing it (`force_freeze`). -/
def pinsState : CommitLock → Bool
  | begun _ _ | logged _ _ _ | freezing | created _ _ => true
  | _ => false

end CommitLock

/-! ### Steps -/

namespace Process

/-- The memtables `restore` returns, by id. -/
def heapOf (tables : List MemTable) (id : ℕ) : MemTable :=
  (tables.find? fun t => t.id = id).getD (.new id)

/-- A process on what `Wal::restore` and `DiskStorage::load` return; `id` is its first new log. -/
def fresh (id : ℕ) (restored : Restored) (storage : DiskStorage) : Process where
  oracle := .new (max storage.maxSeq restored.maxSeq + 1) (restored.maxTxId + 1)
  mems := heapOf restored.tables
  state := ⟨id, restored.tables.map MemTable.id⟩
  walBuf := []
  nextWal := id + 1
  storage := storage
  commit := .free
  flush := .free
  readers := []
  published := []
  failed := []
  written := []

/-- `DB::open`, up to the creation of the log of the new active memtable. -/
def openDb [Crc32] (wal : List LogFile) (ss : List TableFile) : DbResult Process := do
  let restored ← restore wal
  let storage ← DiskStorage.load ss
  return fresh (latestId wal + 1) restored storage

variable (d : Dir) (p : Process)

/-- The process goes on as `p`, the directory unchanged. -/
abbrev goOn (out : Out) : Option (Dir × Process × Out) := some (d, p, out)

/-- The memtables of a state. -/
def memTables (st : State) : List MemTable := st.ids.map p.mems

/-- `Oracle::commit` up to the conflict check. -/
def check (c : Commit) (readTs : Option ℕ) : Option (Dir × Process × Out) :=
  match p.commit with
  | .free =>
    if p.oracle.conflict readTs c.buffer then
      p.goOn d (.committed (.error .commitConflict))
    else
      { p with commit := .checked c }.goOn d .nothing
  | _ => none

def set (key value : Str) : Option (Dir × Process × Out) :=
  check d { p with oracle := p.oracle.nextTxId }
    ⟨UInt64.ofNat p.oracle.txId, none, .single key (.set value)⟩ none

def reader (i : ℕ) : Option Reader := (p.readers[i]?).join

def setReader (i : ℕ) (r : Option Reader) : Process := { p with readers := p.readers.set i r }

/-- `Transaction::commit`. -/
def commitTx (i : ℕ) : Option (Dir × Process × Out) :=
  match p.reader i with
  | some r =>
    match r.kind, r.state, r.consumed with
    | .transaction tx, some _, false =>
      let p' := p.setReader i (some { r with consumed := true, buffer := .empty })
      if r.buffer.isEmpty then p'.goOn d (.committed (.ok ()))
      else p'.check d ⟨tx, some i, r.buffer⟩ (some r.readTs)
    | _, _, _ => none
  | none => none

def stamp : Option (Dir × Process × Out) :=
  match p.commit with
  | .checked c =>
    -- the counter is not used up
    if p.oracle.nextSeq < 2 ^ 64 then
      { p with oracle := p.oracle.nextTs, commit := .stamped c p.oracle.nextSeq }.goOn d .nothing
    else none
  | _ => none

/-- The writer of the active log. -/
def writer : BufWriter := ⟨d.logBytes p.state.memTable, p.walBuf⟩

/-- The commit at `ts` returns the error `e` of an append that has left the writer as `w`. -/
def abort (ts : ℕ) (w : BufWriter) (e : DbError) : Option (Dir × Process × Out) :=
  some ({ d.alterLog p.state.memTable (fun l => { l with bytes := w.file }) with refused := true },
    { p with walBuf := w.buf, commit := .free, failed := ts :: p.failed },
    .committed (.error e))

/-- An append by the commit at `ts`, which goes on as `commit`; `f` enters the record in the log's
ghost fields. -/
def appendCall (ts : ℕ) (call : WalWriter.Call) (commit : CommitLock) (f : Log → Log)
    (vs : List Version) : Option (Dir × Process × Out) :=
  match call.run (p.writer d) with
  | (.ok (), w) =>
    some ({ d.alterLog p.state.memTable (fun l => f { l with bytes := w.file }) with
        hist := d.hist ++ vs }, { p with walBuf := w.buf, commit := commit }, .nothing)
  | (.error e, w) => p.abort d ts w e

/-- The three appends of `Storage::set_batch`. -/
def append : Option (Dir × Process × Out) :=
  match p.commit with
  | .stamped c ts =>
    p.appendCall d ts (.append (.txBegin c.tx)) (.begun c ts)
      (fun l => { l with tail := .begun c.tx }) []
  | .begun c ts =>
    p.appendCall d ts (.appendBatch c.tx (c.buffer.batch ts)) (.logged c ts 0)
      (fun l => { l with tail := .logged c.tx (c.buffer.batch ts) }) []
  | .logged c ts n =>
    if n = (c.buffer.batch ts).length then
      p.appendCall d ts (.append (.txCommit c.tx)) (.sealed c ts)
        (fun l => { l with sets := l.sets ++ [⟨c.tx, c.buffer.batch ts⟩], tail := .none })
        ((c.buffer.batch ts).map Entry.version)
    else none
  | _ => none

/-- The timestamp of a commit that is about to append. -/
def appendTs : Option ℕ :=
  match p.commit with
  | .stamped _ ts | .begun _ ts => some ts
  | .logged c ts n => if n = (c.buffer.batch ts).length then some ts else none
  | _ => none

/-- An append fails: some bytes may have got into the file, others stay in the buffer. -/
def appendFails (written buffered : Bytes) : Option (Dir × Process × Out) :=
  match p.appendTs with
  | some ts =>
    p.abort d ts ⟨d.logBytes p.state.memTable ++ written, buffered⟩ (.io .other)
  | none => none

/-- One round of `for (k, v) in batch { guard.mem_table.put(k, v); }`. -/
def put : Option (Dir × Process × Out) :=
  match p.commit with
  | .logged c ts n =>
    match (c.buffer.batch ts)[n]? with
    | some e =>
      let mt := (p.mems p.state.memTable).put e.1 e.2
      { p with mems := Function.update p.mems p.state.memTable mt
               commit := .logged c ts (n + 1) }.goOn d .nothing
    | none => none
  | _ => none

def record : Option (Dir × Process × Out) :=
  match p.commit with
  | .sealed c ts =>
    { p with oracle := p.oracle.record c.buffer ts, commit := .recorded c ts }.goOn d .nothing
  | _ => none

def publish : Option (Dir × Process × Out) :=
  match p.commit with
  | .recorded c ts =>
    { p with oracle := p.oracle.publish ts
             commit := .published c ts
             published := p.published ++ c.buffer.keys.map fun k => (k, ts) }.goOn d .nothing
  | _ => none

def watermark : Option (Dir × Process × Out) :=
  match p.commit with
  | .published c ts =>
    { p with commit := .watermarked c ts (p.oracle.watermark ts) }.goOn d .nothing
  | _ => none

def prune : Option (Dir × Process × Out) :=
  match p.commit with
  | .watermarked c ts w =>
    { p with oracle := p.oracle.prune w, commit := .pruned c ts }.goOn d .nothing
  | _ => none

/-- The memtable is not full. -/
def finish : Option (Dir × Process × Out) :=
  match p.commit with
  | .pruned _ _ => { p with commit := .free }.goOn d (.committed (.ok ()))
  | _ => none

/-- `Oracle::freeze` up to the look at the active memtable. -/
def freeze : Option (Dir × Process × Out) :=
  match p.commit with
  | .free =>
    if (p.mems p.state.memTable).isEmpty then p.goOn d (.froze (.ok ()))
    else { p with commit := .freezing }.goOn d .nothing
  | _ => none

/-- `self.wal.new_writer()` of `force_freeze`; in a commit the memtable is full. -/
def createLog : Option (Dir × Process × Out) :=
  let create (c : Option (Commit × ℕ)) : Option (Dir × Process × Out) :=
    some (d.addLog p.nextWal, { p with nextWal := p.nextWal + 1, commit := .created c p.nextWal },
      .nothing)
  match p.commit with
  | .pruned c ts => create (some (c, ts))
  | .freezing => create none
  | _ => none

def createLogFails : Option (Dir × Process × Out) :=
  let p' := { p with nextWal := p.nextWal + 1, commit := .free }
  match p.commit with
  | .pruned _ ts =>
    { p' with failed := ts :: p.failed }.goOn d (.committed (.error (.io .other)))
  | .freezing => p'.goOn d (.froze (.error (.io .other)))
  | _ => none

/-- What the caller of `force_freeze` returns. -/
def frozenOut : Option (Commit × ℕ) → Out
  | some _ => .committed (.ok ())
  | none => .froze (.ok ())

/-- The second part of `force_freeze`. -/
def swap : Option (Dir × Process × Out) :=
  match p.commit with
  | .created c id =>
    { p with mems := Function.update p.mems id (.new id)
             state := ⟨id, p.state.memTable :: p.state.frozen⟩
             walBuf := []
             commit := .free }.goOn d (frozenOut c)
  | _ => none

def pick : Option (Dir × Process × Out) :=
  match p.flush, p.state.frozen.getLast? with
  | .free, some mt => { p with flush := .picked mt }.goOn d .nothing
  | _, _ => none

/-- `DiskStorage::l0` up to the rename. -/
def writeTable [Crc32] : Option (Dir × Process × Out) :=
  match p.flush with
  | .picked mt =>
    let p' := { p with storage := { p.storage with id := p.storage.id + 1 } }
    match writeL0 (p.mems mt) with
    | .ok (some (bytes, m)) =>
      let es := newest (p.mems mt).entries
      some ({ d with ss := putFile ⟨0, p.storage.id, bytes, es⟩ d.ss },
        { p' with flush := .renamed mt ⟨⟨bytes, m⟩, es⟩, written := p.written ++ [mt] }, .nothing)
    | .ok none => { p' with flush := .installed mt }.goOn d .nothing
    | .error e => { p' with flush := .free }.goOn d (.flushed (.error e))
  | _ => none

def writeTableFails : Option (Dir × Process × Out) :=
  match p.flush with
  | .picked _ =>
    { p with storage := { p.storage with id := p.storage.id + 1 }
             flush := .free }.goOn d (.flushed (.error (.io .other)))
  | _ => none

def install : Option (Dir × Process × Out) :=
  match p.flush with
  | .renamed mt table =>
    { p with storage := p.storage.install table, flush := .installed mt }.goOn d .nothing
  | _ => none

def retire : Option (Dir × Process × Out) :=
  match p.flush with
  | .installed mt =>
    if p.commit.pinsState then none
    else
      { p with state := ⟨p.state.memTable, p.state.frozen.filter fun id => id ≠ mt⟩
               flush := .retired mt
               readers := p.readers.map (Option.map (Reader.miss (p.mems mt).entries)) }.goOn d
        .nothing
  | _ => none

def removeLog : Option (Dir × Process × Out) :=
  match p.flush with
  | .retired mt =>
    some ({ d with wal := d.wal.filter fun l => l.id ≠ mt }, { p with flush := .free },
      .flushed (.ok true))
  | _ => none

def removeLogFails : Option (Dir × Process × Out) :=
  match p.flush with
  | .retired _ => { p with flush := .free }.goOn d (.flushed (.error (.io .other)))
  | _ => none

/-- `Snapshot::new` up to the timestamp. -/
def snapshot : Option (Dir × Process × Out) :=
  { p with oracle := p.oracle.begin
           readers := p.readers ++ [some (Reader.started .snapshot p.oracle.visible)] }.goOn d .nothing

/-- `Transaction::new` up to the timestamp and the transaction's id. -/
def transaction : Option (Dir × Process × Out) :=
  let kind := Reader.Kind.transaction (UInt64.ofNat p.oracle.txId)
  { p with oracle := p.oracle.begin.nextTxId
           readers := p.readers ++ [some (Reader.started kind p.oracle.visible)] }.goOn d .nothing

/-- `DB::get` up to the timestamp. -/
def get (key : Str) : Option (Dir × Process × Out) :=
  { p with readers := p.readers ++ [some (Reader.started (.get key) p.oracle.visible)] }.goOn d .nothing

/-- `Storage::snapshot`. -/
def capture (i : ℕ) : Option (Dir × Process × Out) :=
  match p.reader i with
  | some r =>
    match r.state with
    | none => (p.setReader i (some { r with state := some p.state })).goOn d .nothing
    | some _ => none
  | none => none

/-- `Transaction::set` and `Transaction::delete`. -/
def write (i : ℕ) (key : Str) (value : Value) : Option (Dir × Process × Out) :=
  match p.reader i with
  | some r =>
    match r.kind, r.state, r.consumed with
    | .transaction _, some _, false =>
      (p.setReader i (some { r with buffer := r.buffer.insert key value })).goOn d .nothing
    | _, _, _ => none
  | none => none

/-- The lookup of a reader in its buffer and its memtables. -/
def search (i : ℕ) (key : Str) : Option (Dir × Process × Out) :=
  match p.reader i with
  | some r =>
    match r.state, r.asks key with
    | some st, true =>
      match r.buffer.get key with
      | some (.set v) => p.goOn d (.got (.ok (some v)))
      | some .delete => p.goOn d (.got (.ok none))
      | none =>
        match searchMems key r.readTs (p.memTables st) with
        | .absent => (p.setReader i (some { r with pending := key :: r.pending })).goOn d .nothing
        | lookup => (p.setReader i r.answered).goOn d (.got (.ok lookup.value))
    | _, _ => none
  | none => none

/-- The rest of the lookup, in the tables. -/
def searchTables [Crc32] (i : ℕ) (key : Str) : Option (Dir × Process × Out) :=
  match p.reader i with
  | some r =>
    if key ∈ r.pending then
      let r' := { r with pending := r.pending.erase key }
      (p.setReader i r'.answered).goOn d
        (.got ((p.storage.getSnap key r.readTs).map Lookup.value))
    else none
  | none => none

/-- The handle goes out of scope. -/
def drop (i : ℕ) : Option (Dir × Process × Out) :=
  match p.reader i with
  | some r =>
    if r.registered ∧ r.state.isSome ∧ p.commit.handle ≠ some i then
      { p.setReader i none with oracle := p.oracle.finish r.readTs }.goOn d .nothing
    else none
  | none => none

/-- The call that creates a handle, or a call of `DB::get`, is dropped while it waits. -/
def cancel (i : ℕ) : Option (Dir × Process × Out) :=
  match p.reader i with
  | some r =>
    if r.state.isNone ∨ ¬ r.registered then (p.setReader i none).goOn d .nothing else none
  | none => none

/-- One action of a process: the directory and the process afterwards, and what the action returns;
none where it is not possible. -/
def step [Crc32] : Act → Option (Dir × Process × Out)
  | .open => none
  | .crash => none
  | .set k v => p.set d k v
  | .commit i => p.commitTx d i
  | .stamp => p.stamp d
  | .append => p.append d
  | .appendFails written buffered => p.appendFails d written buffered
  | .put => p.put d
  | .record => p.record d
  | .publish => p.publish d
  | .watermark => p.watermark d
  | .prune => p.prune d
  | .finish => p.finish d
  | .freeze => p.freeze d
  | .createLog => p.createLog d
  | .createLogFails => p.createLogFails d
  | .swap => p.swap d
  | .pick => p.pick d
  | .writeTable => p.writeTable d
  | .writeTableFails => p.writeTableFails d
  | .install => p.install d
  | .retire => p.retire d
  | .removeLog => p.removeLog d
  | .removeLogFails => p.removeLogFails d
  | .snapshot => p.snapshot d
  | .transaction => p.transaction d
  | .get k => p.get d k
  | .capture i => p.capture d i
  | .write i k v => p.write d i k v
  | .search i k => p.search d i k
  | .searchTables i k => p.searchTables d i k
  | .drop i => p.drop d i
  | .cancel i => p.cancel d i

end Process

/-- `DB::open`. -/
def openSys [Crc32] (d : Dir) : Sys × Out :=
  match Process.openDb (d.wal.map Log.file) d.ss with
  | .ok p => (⟨d.addLog p.state.memTable, some p⟩, .opened (.ok ()))
  | .error e => (⟨d, none⟩, .opened (.error e))

/-- One action: the system afterwards and what the action returns; none where it is not possible. -/
def step [Crc32] (s : Sys) (a : Act) : Option (Sys × Out) :=
  match s.proc, a with
  | none, .open => some (openSys s.dir)
  | none, _ => none
  | some _, .crash => some (⟨s.dir, none⟩, .nothing)
  | some p, a => (p.step s.dir a).map fun (d', p', o) => (⟨d', some p'⟩, o)

end LowDB
