import LowDB.Engine.System

/-! # What a step can do

`Step d p a o d' p'` lists the actions of a process by their outcome, each with its guard and its
effect spelled out, and `step_of_eq` reads every action of `step` off as one of them.  `SysStep` adds
opening and crashing.  All invariants are proved by cases on these relations and carried over runs by
`Run.holds`. -/

namespace LowDB

variable [Crc32]

/-- One action of a process, by outcome. -/
inductive Step (d : Dir) (p : Process) : Act → Out → Dir → Process → Prop
  | set {k v : Str} (hc : p.commit = .free) :
      Step d p (.set k v) .nothing d
        { p with
          oracle := p.oracle.nextTxId
          commit := .checked ⟨UInt64.ofNat p.oracle.txId, none, .single k (.set v)⟩ }
  | commitEmpty {i : ℕ} {r : Reader} {tx : UInt64} {st : State} (hr : p.reader i = some r)
      (hk : r.kind = .transaction tx) (hs : r.state = some st) (hu : r.consumed = false)
      (hb : r.buffer.isEmpty) :
      Step d p (.commit i) (.committed (.ok ())) d
        (p.setReader i (some { r with consumed := true, buffer := .empty }))
  | conflict {i : ℕ} {r : Reader} {tx : UInt64} {st : State} (hr : p.reader i = some r)
      (hk : r.kind = .transaction tx) (hs : r.state = some st) (hu : r.consumed = false)
      (hb : r.buffer.isEmpty = false) (hc : p.commit = .free)
      (hx : p.oracle.conflict (some r.readTs) r.buffer) :
      Step d p (.commit i) (.committed (.error .commitConflict)) d
        (p.setReader i (some { r with consumed := true, buffer := .empty }))
  | commit {i : ℕ} {r : Reader} {tx : UInt64} {st : State} (hr : p.reader i = some r)
      (hk : r.kind = .transaction tx) (hs : r.state = some st) (hu : r.consumed = false)
      (hb : r.buffer.isEmpty = false) (hc : p.commit = .free)
      (hx : ¬ p.oracle.conflict (some r.readTs) r.buffer) :
      Step d p (.commit i) .nothing d
        { p.setReader i (some { r with consumed := true, buffer := .empty }) with
          commit := .checked ⟨tx, some i, r.buffer⟩ }
  | stamp {c : Commit} (hc : p.commit = .checked c) (hlt : p.oracle.nextSeq < 2 ^ 64) :
      Step d p .stamp .nothing d
        { p with oracle := p.oracle.nextTs, commit := .stamped c p.oracle.nextSeq }
  | appendBegin {c : Commit} {ts : ℕ} (hc : p.commit = .stamped c ts) :
      Step d p .append .nothing
        (d.alterLog p.state.memTable fun l =>
          { l with bytes := (p.writer d).stream ++ (WalCmd.txBegin c.tx).encode
                   tail := .begun c.tx })
        { p with walBuf := [], commit := .begun c ts }
  | appendBatch {c : Commit} {ts : ℕ} (hc : p.commit = .begun c ts)
      (hf : (WalCmd.batch c.tx (c.buffer.batch ts)).Fits) :
      Step d p .append .nothing
        (d.alterLog p.state.memTable fun l =>
          { l with bytes := (p.writer d).stream ++ (WalCmd.batch c.tx (c.buffer.batch ts)).encode
                   tail := .logged c.tx (c.buffer.batch ts) })
        { p with walBuf := [], commit := .logged c ts 0 }
  | refuse {c : Commit} {ts : ℕ} {w : BufWriter} (hc : p.commit = .begun c ts)
      (hf : ¬ (WalCmd.batch c.tx (c.buffer.batch ts)).Fits) :
      Step d p .append (.committed (.error .tryFromInt))
        { d.alterLog p.state.memTable (fun l => { l with bytes := w.file }) with refused := true }
        { p with walBuf := w.buf, commit := .free, failed := ts :: p.failed }
  | appendCommit {c : Commit} {ts : ℕ}
      (hc : p.commit = .logged c ts (c.buffer.batch ts).length) :
      Step d p .append .nothing
        { d.alterLog p.state.memTable (fun l =>
            { l with bytes := (p.writer d).stream ++ (WalCmd.txCommit c.tx).encode
                     sets := l.sets ++ [⟨c.tx, c.buffer.batch ts⟩]
                     tail := .none }) with
          hist := d.hist ++ (c.buffer.batch ts).map Entry.version }
        { p with walBuf := [], commit := .sealed c ts }
  | appendFails {ts : ℕ} {written buffered : Bytes} (ht : p.appendTs = some ts) :
      Step d p (.appendFails written buffered) (.committed (.error (.io .other)))
        { d.alterLog p.state.memTable
            (fun l => { l with bytes := d.logBytes p.state.memTable ++ written }) with
          refused := true }
        { p with walBuf := buffered, commit := .free, failed := ts :: p.failed }
  | put {c : Commit} {ts n : ℕ} {e : Entry} (hc : p.commit = .logged c ts n)
      (he : (c.buffer.batch ts)[n]? = some e) :
      Step d p .put .nothing d
        { p with
          mems := Function.update p.mems p.state.memTable ((p.mems p.state.memTable).put e.1 e.2)
          commit := .logged c ts (n + 1) }
  | record {c : Commit} {ts : ℕ} (hc : p.commit = .sealed c ts) :
      Step d p .record .nothing d
        { p with oracle := p.oracle.record c.buffer ts, commit := .recorded c ts }
  | publish {c : Commit} {ts : ℕ} (hc : p.commit = .recorded c ts) :
      Step d p .publish .nothing d
        { p with
          oracle := p.oracle.publish ts
          commit := .published c ts
          published := p.published ++ c.buffer.keys.map fun k => (k, ts) }
  | watermark {c : Commit} {ts : ℕ} (hc : p.commit = .published c ts) :
      Step d p .watermark .nothing d
        { p with commit := .watermarked c ts (p.oracle.watermark ts) }
  | prune {c : Commit} {ts w : ℕ} (hc : p.commit = .watermarked c ts w) :
      Step d p .prune .nothing d { p with oracle := p.oracle.prune w, commit := .pruned c ts }
  | finish {c : Commit} {ts : ℕ} (hc : p.commit = .pruned c ts) :
      Step d p .finish (.committed (.ok ())) d { p with commit := .free }
  | freezeEmpty (hc : p.commit = .free) (he : (p.mems p.state.memTable).isEmpty) :
      Step d p .freeze (.froze (.ok ())) d p
  | freeze (hc : p.commit = .free) (he : (p.mems p.state.memTable).isEmpty = false) :
      Step d p .freeze .nothing d { p with commit := .freezing }
  | createLog {o : Option (Commit × ℕ)}
      (hc : match o with
        | some (c, ts) => p.commit = .pruned c ts
        | none => p.commit = .freezing) :
      Step d p .createLog .nothing
        (d.addLog p.nextWal) { p with nextWal := p.nextWal + 1, commit := .created o p.nextWal }
  | createLogFails {c : Commit} {ts : ℕ} (hc : p.commit = .pruned c ts) :
      Step d p .createLogFails (.committed (.error (.io .other))) d
        { p with nextWal := p.nextWal + 1, commit := .free, failed := ts :: p.failed }
  | freezeFails (hc : p.commit = .freezing) :
      Step d p .createLogFails (.froze (.error (.io .other))) d
        { p with nextWal := p.nextWal + 1, commit := .free }
  | swap {o : Option (Commit × ℕ)} {id : ℕ} (hc : p.commit = .created o id) :
      Step d p .swap (Process.frozenOut o) d
        { p with
          mems := Function.update p.mems id (.new id)
          state := ⟨id, p.state.ids⟩
          walBuf := []
          commit := .free }
  | pick {mt : ℕ} (hf : p.flush = .free) (hm : p.state.frozen.getLast? = some mt) :
      Step d p .pick .nothing d { p with flush := .picked mt }
  | writeTable {mt : ℕ} {bytes : Bytes} {m : SSTableMeta} (hf : p.flush = .picked mt)
      (hw : writeL0 (p.mems mt) = .ok (some (bytes, m))) :
      Step d p .writeTable .nothing
        { d with ss := putFile ⟨0, p.storage.id, bytes, newest (p.mems mt).entries⟩ d.ss }
        { p with
          storage := { p.storage with id := p.storage.id + 1 }
          flush := .renamed mt ⟨⟨bytes, m⟩, newest (p.mems mt).entries⟩
          written := p.written ++ [mt] }
  | writeNothing {mt : ℕ} (hf : p.flush = .picked mt) (hw : writeL0 (p.mems mt) = .ok none) :
      Step d p .writeTable .nothing d
        { p with storage := { p.storage with id := p.storage.id + 1 }, flush := .installed mt }
  | writeRefused {mt : ℕ} {e : DbError} (hf : p.flush = .picked mt)
      (hw : writeL0 (p.mems mt) = .error e) :
      Step d p .writeTable (.flushed (.error e)) d
        { p with storage := { p.storage with id := p.storage.id + 1 }, flush := .free }
  | writeTableFails {mt : ℕ} (hf : p.flush = .picked mt) :
      Step d p .writeTableFails (.flushed (.error (.io .other))) d
        { p with storage := { p.storage with id := p.storage.id + 1 }, flush := .free }
  | install {mt : ℕ} {table : Table} (hf : p.flush = .renamed mt table) :
      Step d p .install .nothing d
        { p with storage := p.storage.install table, flush := .installed mt }
  | retire {mt : ℕ} (hf : p.flush = .installed mt) (hc : p.commit.pinsState = false) :
      Step d p .retire .nothing d
        { p with
          state := ⟨p.state.memTable, p.state.frozen.filter fun id => id ≠ mt⟩
          flush := .retired mt
          readers := p.readers.map (Option.map (Reader.miss (p.mems mt).entries)) }
  | removeLog {mt : ℕ} (hf : p.flush = .retired mt) :
      Step d p .removeLog (.flushed (.ok true))
        { d with wal := d.wal.filter fun l => l.id ≠ mt } { p with flush := .free }
  | removeLogFails {mt : ℕ} (hf : p.flush = .retired mt) :
      Step d p .removeLogFails (.flushed (.error (.io .other))) d { p with flush := .free }
  | snapshot :
      Step d p .snapshot .nothing d
        { p with
          oracle := p.oracle.begin
          readers := p.readers ++ [some (.started .snapshot p.oracle.visible)] }
  | transaction :
      Step d p .transaction .nothing d
        { p with
          oracle := p.oracle.begin.nextTxId
          readers := p.readers ++
            [some (.started (.transaction (UInt64.ofNat p.oracle.txId)) p.oracle.visible)] }
  | get {k : Str} :
      Step d p (.get k) .nothing d
        { p with readers := p.readers ++ [some (.started (.get k) p.oracle.visible)] }
  | capture {i : ℕ} {r : Reader} (hr : p.reader i = some r) (hs : r.state = none) :
      Step d p (.capture i) .nothing d (p.setReader i (some { r with state := some p.state }))
  | write {i : ℕ} {r : Reader} {tx : UInt64} {st : State} {k : Str} {v : Value}
      (hr : p.reader i = some r) (hk : r.kind = .transaction tx) (hs : r.state = some st)
      (hu : r.consumed = false) :
      Step d p (.write i k v) .nothing d
        (p.setReader i (some { r with buffer := r.buffer.insert k v }))
  | searchBuffer {i : ℕ} {r : Reader} {st : State} {k : Str} {v : Value}
      (hr : p.reader i = some r) (hs : r.state = some st) (ha : r.asks k)
      (hb : r.buffer.get k = some v) :
      Step d p (.search i k) (.got (.ok (Lookup.ofValue v).value)) d p
  | searchAbsent {i : ℕ} {r : Reader} {st : State} {k : Str}
      (hr : p.reader i = some r) (hs : r.state = some st) (ha : r.asks k)
      (hb : r.buffer.get k = none) (hl : searchMems k r.readTs (p.memTables st) = .absent) :
      Step d p (.search i k) .nothing d
        (p.setReader i (some { r with pending := k :: r.pending }))
  | searchMems {i : ℕ} {r : Reader} {st : State} {k : Str} {l : Lookup}
      (hr : p.reader i = some r) (hs : r.state = some st) (ha : r.asks k)
      (hb : r.buffer.get k = none) (hl : searchMems k r.readTs (p.memTables st) = l)
      (hp : l ≠ .absent) :
      Step d p (.search i k) (.got (.ok l.value)) d (p.setReader i r.answered)
  | searchTables {i : ℕ} {r : Reader} {k : Str} (hr : p.reader i = some r) (hk : k ∈ r.pending) :
      Step d p (.searchTables i k) (.got ((p.storage.getSnap k r.readTs).map Lookup.value)) d
        (p.setReader i { r with pending := r.pending.erase k }.answered)
  | drop {i : ℕ} {r : Reader} (hr : p.reader i = some r) (hg : r.registered)
      (hs : r.state.isSome) (hh : p.commit.handle ≠ some i) :
      Step d p (.drop i) .nothing d
        { p.setReader i none with oracle := p.oracle.finish r.readTs }
  | cancel {i : ℕ} {r : Reader} (hr : p.reader i = some r)
      (hs : r.state.isNone ∨ r.registered = false) :
      Step d p (.cancel i) .nothing d (p.setReader i none)

/-! ### Reading the actions off `step` -/

namespace Process

variable {d d' : Dir} {p p' : Process} {o : Out}

theorem openDb_eq {wal : List LogFile} {ss : List TableFile} (h : openDb wal ss = .ok p) :
    ∃ restored storage, restore wal = .ok restored ∧ DiskStorage.load ss = .ok storage ∧
      p = fresh (latestId wal + 1) restored storage := by
  unfold openDb at h
  cases hr : restore wal with
  | error e => rw [hr] at h; cases h
  | ok restored =>
      cases hl : DiskStorage.load ss with
      | error e => rw [hr, hl] at h; cases h
      | ok storage =>
          rw [hr, hl] at h
          cases h
          exact ⟨restored, storage, rfl, rfl, rfl⟩

theorem set_eq {k v : Str} (h : p.set d k v = some (d', p', o)) : Step d p (.set k v) o d' p' := by
  unfold set check at h
  split at h
  case h_1 hc =>
      rw [if_neg (by exact Bool.false_ne_true)] at h
      cases h
      exact .set hc
  case h_2 => cases h

theorem commitTx_eq {i : ℕ} (h : p.commitTx d i = some (d', p', o)) :
    Step d p (.commit i) o d' p' := by
  unfold commitTx at h
  split at h
  case h_2 => cases h
  case h_1 r hr =>
    split at h
    case h_2 => cases h
    case h_1 tx st hk hs hu =>
      by_cases hb : r.buffer.isEmpty
      · rw [if_pos hb] at h
        cases h
        exact .commitEmpty hr hk hs hu hb
      · rw [if_neg hb] at h
        rw [Bool.not_eq_true] at hb
        unfold check at h
        split at h
        case h_2 => cases h
        case h_1 hc =>
          split_ifs at h with hx
          · cases h
            exact .conflict hr hk hs hu hb hc hx
          · cases h
            exact .commit hr hk hs hu hb hc hx

theorem stamp_eq (h : p.stamp d = some (d', p', o)) : Step d p .stamp o d' p' := by
  unfold stamp at h
  split at h
  case h_2 => cases h
  case h_1 c hc =>
    split_ifs at h with hlt
    cases h
    exact .stamp hc hlt

theorem append_eq (h : p.append d = some (d', p', o)) : Step d p .append o d' p' := by
  unfold append appendCall at h
  split at h
  case h_1 c ts hc =>
    rw [WalWriter.run_of_fits (by trivial)] at h
    cases h
    rw [List.append_nil]
    exact .appendBegin hc
  case h_2 c ts hc =>
    by_cases hf : (WalCmd.batch c.tx (c.buffer.batch ts)).Fits
    · have hf' : (WalWriter.Call.appendBatch c.tx (c.buffer.batch ts)).cmd.Fits := hf
      rw [WalWriter.run_of_fits hf'] at h
      cases h
      rw [List.append_nil]
      exact .appendBatch hc hf
    · obtain ⟨w, hw, _⟩ :=
        @WalWriter.run_of_not_fits (.appendBatch c.tx (c.buffer.batch ts)) hf (p.writer d)
      rw [hw] at h
      cases h
      exact .refuse hc hf
  case h_3 c ts n hc =>
    split_ifs at h with hn
    subst hn
    rw [WalWriter.run_of_fits (by trivial)] at h
    cases h
    exact .appendCommit hc
  case h_4 => cases h

theorem appendFails_eq {written buffered : Bytes}
    (h : p.appendFails d written buffered = some (d', p', o)) :
    Step d p (.appendFails written buffered) o d' p' := by
  unfold appendFails at h
  split at h
  case h_1 ts ht =>
    cases h
    exact .appendFails ht
  case h_2 => cases h

theorem put_eq (h : p.put d = some (d', p', o)) : Step d p .put o d' p' := by
  unfold put at h
  split at h
  case h_2 => cases h
  case h_1 c ts n hc =>
    split at h
    case h_2 => cases h
    case h_1 e he =>
      cases h
      exact .put hc he

theorem record_eq (h : p.record d = some (d', p', o)) : Step d p .record o d' p' := by
  unfold record at h
  split at h
  case h_1 c ts hc =>
    cases h
    exact .record hc
  case h_2 => cases h

theorem publish_eq (h : p.publish d = some (d', p', o)) : Step d p .publish o d' p' := by
  unfold publish at h
  split at h
  case h_1 c ts hc =>
    cases h
    exact .publish hc
  case h_2 => cases h

theorem watermark_eq (h : p.watermark d = some (d', p', o)) : Step d p .watermark o d' p' := by
  unfold watermark at h
  split at h
  case h_1 c ts hc =>
    cases h
    exact .watermark hc
  case h_2 => cases h

theorem prune_eq (h : p.prune d = some (d', p', o)) : Step d p .prune o d' p' := by
  unfold prune at h
  split at h
  case h_1 c ts w hc =>
    cases h
    exact .prune hc
  case h_2 => cases h

theorem finish_eq (h : p.finish d = some (d', p', o)) : Step d p .finish o d' p' := by
  unfold finish at h
  split at h
  case h_1 c ts hc =>
    cases h
    exact .finish hc
  case h_2 => cases h

theorem freeze_eq (h : p.freeze d = some (d', p', o)) : Step d p .freeze o d' p' := by
  unfold freeze at h
  split at h
  case h_2 => cases h
  case h_1 hc =>
    split_ifs at h with he
    · cases h
      exact .freezeEmpty hc he
    · cases h
      exact .freeze hc (Bool.not_eq_true _ ▸ he)

theorem createLog_eq (h : p.createLog d = some (d', p', o)) : Step d p .createLog o d' p' := by
  unfold createLog at h
  split at h
  case h_1 c ts hc =>
    cases h
    exact @Step.createLog _ d p (some (c, ts)) hc
  case h_2 hc =>
    cases h
    exact @Step.createLog _ d p none hc
  case h_3 => cases h

theorem createLogFails_eq (h : p.createLogFails d = some (d', p', o)) :
    Step d p .createLogFails o d' p' := by
  unfold createLogFails at h
  split at h
  case h_1 c ts hc =>
    cases h
    exact .createLogFails hc
  case h_2 hc =>
    cases h
    exact .freezeFails hc
  case h_3 => cases h

theorem swap_eq (h : p.swap d = some (d', p', o)) : Step d p .swap o d' p' := by
  unfold swap at h
  split at h
  case h_1 c id hc =>
    cases h
    exact .swap hc
  case h_2 => cases h

theorem pick_eq (h : p.pick d = some (d', p', o)) : Step d p .pick o d' p' := by
  unfold pick at h
  split at h
  case h_1 mt hf hm =>
    cases h
    exact .pick hf hm
  case h_2 => cases h

theorem writeTable_eq (h : p.writeTable d = some (d', p', o)) :
    Step d p .writeTable o d' p' := by
  unfold writeTable at h
  split at h
  case h_2 => cases h
  case h_1 mt hf =>
    split at h
    case h_1 bytes m hw =>
      cases h
      exact .writeTable hf hw
    case h_2 hw =>
      cases h
      exact .writeNothing hf hw
    case h_3 e hw =>
      cases h
      exact .writeRefused hf hw

theorem writeTableFails_eq (h : p.writeTableFails d = some (d', p', o)) :
    Step d p .writeTableFails o d' p' := by
  unfold writeTableFails at h
  split at h
  case h_1 mt hf =>
    cases h
    exact .writeTableFails hf
  case h_2 => cases h

theorem install_eq (h : p.install d = some (d', p', o)) : Step d p .install o d' p' := by
  unfold install at h
  split at h
  case h_1 mt table hf =>
    cases h
    exact .install hf
  case h_2 => cases h

theorem retire_eq (h : p.retire d = some (d', p', o)) : Step d p .retire o d' p' := by
  unfold retire at h
  split at h
  case h_2 => cases h
  case h_1 mt hf =>
    split_ifs at h with hc
    cases h
    exact .retire hf (Bool.not_eq_true _ ▸ hc)

theorem removeLog_eq (h : p.removeLog d = some (d', p', o)) : Step d p .removeLog o d' p' := by
  unfold removeLog at h
  split at h
  case h_1 mt hf =>
    cases h
    exact .removeLog hf
  case h_2 => cases h

theorem removeLogFails_eq (h : p.removeLogFails d = some (d', p', o)) :
    Step d p .removeLogFails o d' p' := by
  unfold removeLogFails at h
  split at h
  case h_1 mt hf =>
    cases h
    exact .removeLogFails hf
  case h_2 => cases h

theorem capture_eq {i : ℕ} (h : p.capture d i = some (d', p', o)) :
    Step d p (.capture i) o d' p' := by
  unfold capture at h
  split at h
  case h_2 => cases h
  case h_1 r hr =>
    split at h
    case h_1 hs =>
      cases h
      exact .capture hr hs
    case h_2 => cases h

theorem write_eq {i : ℕ} {k : Str} {v : Value} (h : p.write d i k v = some (d', p', o)) :
    Step d p (.write i k v) o d' p' := by
  unfold write at h
  split at h
  case h_2 => cases h
  case h_1 r hr =>
    split at h
    case h_1 tx st hk hs hu =>
      cases h
      exact .write hr hk hs hu
    case h_2 => cases h

theorem search_eq {i : ℕ} {k : Str} (h : p.search d i k = some (d', p', o)) :
    Step d p (.search i k) o d' p' := by
  unfold search at h
  split at h
  case h_2 => cases h
  case h_1 r hr =>
    split at h
    case h_2 => cases h
    case h_1 st hs ha =>
      split at h
      case h_1 v hb =>
        cases h
        exact .searchBuffer hr hs ha hb
      case h_2 hb =>
        cases h
        exact .searchBuffer hr hs ha hb
      case h_3 hb =>
        split at h
        case h_1 hl =>
          cases h
          exact .searchAbsent hr hs ha hb hl
        case h_2 l hp =>
          cases h
          exact .searchMems hr hs ha hb rfl hp

theorem searchTables_eq {i : ℕ} {k : Str} (h : p.searchTables d i k = some (d', p', o)) :
    Step d p (.searchTables i k) o d' p' := by
  unfold searchTables at h
  split at h
  case h_2 => cases h
  case h_1 r hr =>
    split_ifs at h with hk
    cases h
    exact .searchTables hr hk

theorem drop_eq {i : ℕ} (h : p.drop d i = some (d', p', o)) : Step d p (.drop i) o d' p' := by
  unfold drop at h
  split at h
  case h_2 => cases h
  case h_1 r hr =>
    split_ifs at h with hg
    cases h
    exact .drop hr hg.1 hg.2.1 hg.2.2

theorem cancel_eq {i : ℕ} (h : p.cancel d i = some (d', p', o)) :
    Step d p (.cancel i) o d' p' := by
  unfold cancel at h
  split at h
  case h_2 => cases h
  case h_1 r hr =>
    split_ifs at h with hs
    cases h
    exact .cancel hr (by simpa using hs)

end Process

/-- Every action does one of the things listed. -/
theorem step_of_eq {d d' : Dir} {p p' : Process} {a : Act} {o : Out}
    (h : p.step d a = some (d', p', o)) : Step d p a o d' p' := by
  cases a with
  | «open» => cases h
  | crash => cases h
  | set k v => exact Process.set_eq h
  | commit i => exact Process.commitTx_eq h
  | stamp => exact Process.stamp_eq h
  | append => exact Process.append_eq h
  | appendFails w b => exact Process.appendFails_eq h
  | put => exact Process.put_eq h
  | record => exact Process.record_eq h
  | publish => exact Process.publish_eq h
  | watermark => exact Process.watermark_eq h
  | prune => exact Process.prune_eq h
  | finish => exact Process.finish_eq h
  | freeze => exact Process.freeze_eq h
  | createLog => exact Process.createLog_eq h
  | createLogFails => exact Process.createLogFails_eq h
  | swap => exact Process.swap_eq h
  | pick => exact Process.pick_eq h
  | writeTable => exact Process.writeTable_eq h
  | writeTableFails => exact Process.writeTableFails_eq h
  | install => exact Process.install_eq h
  | retire => exact Process.retire_eq h
  | removeLog => exact Process.removeLog_eq h
  | removeLogFails => exact Process.removeLogFails_eq h
  | snapshot =>
      cases h
      exact .snapshot
  | transaction =>
      cases h
      exact .transaction
  | get k =>
      cases h
      exact .get
  | capture i => exact Process.capture_eq h
  | write i k v => exact Process.write_eq h
  | search i k => exact Process.search_eq h
  | searchTables i k => exact Process.searchTables_eq h
  | drop i => exact Process.drop_eq h
  | cancel i => exact Process.cancel_eq h

/-! ### Runs -/

/-- One action of the system. -/
inductive SysStep : Sys → Act → Out → Sys → Prop
  | opened {d : Dir} {p : Process} (h : Process.openDb (d.wal.map Log.file) d.ss = .ok p) :
      SysStep ⟨d, none⟩ .open (.opened (.ok ())) ⟨d.addLog p.state.memTable, some p⟩
  | notOpened {d : Dir} {e : DbError} (h : Process.openDb (d.wal.map Log.file) d.ss = .error e) :
      SysStep ⟨d, none⟩ .open (.opened (.error e)) ⟨d, none⟩
  | crash {d : Dir} {p : Process} : SysStep ⟨d, some p⟩ .crash .nothing ⟨d, none⟩
  | step {d d' : Dir} {p p' : Process} {a : Act} {o : Out} (h : Step d p a o d' p') :
      SysStep ⟨d, some p⟩ a o ⟨d', some p'⟩

theorem sysStep_of_eq {s s' : Sys} {a : Act} {o : Out} (h : step s a = some (s', o)) :
    SysStep s a o s' := by
  obtain ⟨d, p⟩ := s
  unfold step at h
  split at h
  case h_1 hp =>
    cases hp
    unfold openSys at h
    split at h
    case h_1 p ho =>
      cases h
      exact .opened ho
    case h_2 e ho =>
      cases h
      exact .notOpened ho
  case h_2 => cases h
  case h_3 p hp =>
    cases hp
    cases h
    exact .crash
  case h_4 a p hp _ =>
    cases hp
    obtain ⟨⟨d', p', o'⟩, hs, he⟩ := Option.map_eq_some_iff.mp h
    cases he
    exact .step (step_of_eq hs)

/-- Runs in which every action meets the condition `P` on the state before it. -/
inductive Run (P : Sys → Act → Prop) : Sys → Sys → Prop
  | refl {s : Sys} : Run P s s
  | tail {s t u : Sys} {a : Act} {o : Out} (hr : Run P s t) (hP : P t a)
      (h : step t a = some (u, o)) : Run P s u

/-- The states that runs from an empty directory reach. -/
abbrev Reach (P : Sys → Act → Prop) (s : Sys) : Prop := Run P Sys.init s

/-- `J` holds of the directory when no process runs on it, `I` of it and the process otherwise. -/
def Sys.Holds (J : Dir → Prop) (I : Dir → Process → Prop) (s : Sys) : Prop :=
  match s.proc with
  | none => J s.dir
  | some p => I s.dir p

theorem Run.mono {P Q : Sys → Act → Prop} {s t : Sys} (h : Run P s t)
    (hPQ : ∀ s a, P s a → Q s a) : Run Q s t := by
  induction h with
  | refl => exact .refl
  | tail _ hP h ih => exact .tail ih (hPQ _ _ hP) h

/-- What opening establishes, every action keeps and a crash leaves, holds along runs. -/
theorem Run.holds {P : Sys → Act → Prop} {J : Dir → Prop} {I : Dir → Process → Prop} {s t : Sys}
    (hopen : ∀ d p, Run P s ⟨d, none⟩ → P ⟨d, none⟩ .open → J d →
      Process.openDb (d.wal.map Log.file) d.ss = .ok p → I (d.addLog p.state.memTable) p)
    (hcrash : ∀ d p, I d p → J d)
    (hstep : ∀ d p a o d' p', Run P s ⟨d, some p⟩ → P ⟨d, some p⟩ a → I d p →
      Step d p a o d' p' → I d' p')
    (h : Run P s t) (hs : s.Holds J I) : t.Holds J I := by
  induction h with
  | refl => exact hs
  | tail hr hP h ih =>
      cases sysStep_of_eq h with
      | opened ho => exact hopen _ _ hr hP ih ho
      | notOpened => exact ih
      | crash => exact hcrash _ _ ih
      | step hst => exact hstep _ _ _ _ _ _ hr hP ih hst

/-- The actions `as` in order, each under the condition `P`. -/
def exec (P : Sys → Act → Prop) [∀ s a, Decidable (P s a)] (s : Sys) : List Act → Option Sys
  | [] => some s
  | a :: as =>
    if P s a then
      match step s a with
      | some (t, _) => exec P t as
      | none => none
    else none

theorem run_of_exec {P : Sys → Act → Prop} [∀ s a, Decidable (P s a)] {s t u : Sys}
    {as : List Act} (hr : Run P s t) (h : exec P t as = some u) : Run P s u := by
  induction as generalizing t with
  | nil => exact Option.some_inj.mp h ▸ hr
  | cons a as ih =>
      unfold exec at h
      split_ifs at h with hP
      split at h
      case h_1 t' o hs => exact ih (hr.tail hP hs) h
      case h_2 => cases h

theorem reach_of_exec {P : Sys → Act → Prop} [∀ s a, Decidable (P s a)] {u : Sys}
    {as : List Act} (h : exec P .init as = some u) : Reach P u := run_of_exec .refl h

/-- Any action. -/
def Any (_ : Sys) (_ : Act) : Prop := True

instance (s : Sys) (a : Act) : Decidable (Any s a) := .isTrue trivial

/-- A call of `DB::set` that nothing interrupts. -/
def setActs (k v : Str) : List Act :=
  [.set k v, .stamp, .append, .append, .put, .append, .record, .publish, .watermark, .prune, .finish]

/-- A call of `Oracle::freeze`. -/
def freezeActs : List Act := [.freeze, .createLog, .swap]

/-- A call of `Storage::flush_oldest`. -/
def flushActs : List Act := [.pick, .writeTable, .install, .retire, .removeLog]

/-- `"k"`. -/
def keyK : Str := .ascii [0x6b]

/-- `"1"`. -/
def textOne : Str := .ascii [0x31]

/-- `"2"`. -/
def textTwo : Str := .ascii [0x32]

end LowDB
