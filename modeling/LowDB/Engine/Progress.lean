import LowDB.Engine.Handles

/-! # Progress

Where nothing fails and nothing gets in the way, the actions of a call can be taken one after the other:
a commit whose records fit goes through (`run_through`), a transaction takes its writes and commits, a
full memtable is frozen and written to a table. -/

namespace LowDB

section through
variable [Crc32] {s : Sys} {d d' : Dir} {p p' : Process} {a : Act} {o : Out}

/-- A run goes on with an action of the process. -/
theorem Run.act (hr : Run Calm s ⟨d, some p⟩) (h : p.step d a = some (d', p', o))
    (hf : a.fails = false) : Run Calm s ⟨d', some p'⟩ := by
  have hs : (p.step d a).map (fun x => ((⟨x.1, some x.2.1⟩ : Sys), x.2.2)) =
      some (⟨d', some p'⟩, o) := by
    rw [h]
    rfl
  cases a with
  | «open» => cases h
  | crash => cases h
  | _ => exact hr.tail ⟨hf, fun h => nomatch h⟩ hs

namespace Process

/-- The process after the commit `c`, up to the look at the size of the memtable. -/
def through (p : Process) (c : Commit) : Process :=
  let ts := p.oracle.nextSeq
  let o := (p.oracle.nextTs.record c.buffer ts).publish ts
  { p with
    oracle := o.prune (o.watermark ts)
    mems := Function.update p.mems p.state.memTable
      ((p.mems p.state.memTable).putAll (c.buffer.batch ts))
    walBuf := []
    commit := .pruned c ts
    published := p.published ++ c.buffer.keys.map fun k => (k, ts) }

/-- The appends change the logs only. -/
theorem run_appendBegin {c : Commit} {ts : ℕ} (hr : Run Calm s ⟨d, some p⟩)
    (hc : p.commit = .stamped c ts) :
    ∃ d', Run Calm s ⟨d', some { p with walBuf := [], commit := .begun c ts }⟩ ∧
      d'.ss = d.ss ∧ d'.refused = d.refused := by
  have ha : ∃ d', p.append d = some (d', { p with walBuf := [], commit := .begun c ts }, .nothing) ∧
      d'.ss = d.ss ∧ d'.refused = d.refused := by
    unfold append appendCall
    rw [hc]
    dsimp only
    rw [WalWriter.run_of_fits (by trivial)]
    exact ⟨_, rfl, rfl, rfl⟩
  obtain ⟨d', ha, hd⟩ := ha
  exact ⟨d', hr.act (a := .append) ha rfl, hd⟩

theorem run_appendBatch {c : Commit} {ts : ℕ} (hr : Run Calm s ⟨d, some p⟩)
    (hc : p.commit = .begun c ts) (hf : (WalCmd.batch c.tx (c.buffer.batch ts)).Fits) :
    ∃ d', Run Calm s ⟨d', some { p with walBuf := [], commit := .logged c ts 0 }⟩ ∧
      d'.ss = d.ss ∧ d'.refused = d.refused := by
  have hf' : (WalWriter.Call.appendBatch c.tx (c.buffer.batch ts)).cmd.Fits := hf
  have ha : ∃ d', p.append d = some (d', { p with walBuf := [], commit := .logged c ts 0 }, .nothing) ∧
      d'.ss = d.ss ∧ d'.refused = d.refused := by
    unfold append appendCall
    rw [hc]
    dsimp only
    rw [WalWriter.run_of_fits hf']
    exact ⟨_, rfl, rfl, rfl⟩
  obtain ⟨d', ha, hd⟩ := ha
  exact ⟨d', hr.act (a := .append) ha rfl, hd⟩

theorem run_appendCommit {c : Commit} {ts : ℕ} (hr : Run Calm s ⟨d, some p⟩)
    (hc : p.commit = .logged c ts (c.buffer.batch ts).length) :
    ∃ d', Run Calm s ⟨d', some { p with walBuf := [], commit := .sealed c ts }⟩ ∧
      d'.ss = d.ss ∧ d'.refused = d.refused := by
  have ha : ∃ d', p.append d = some (d', { p with walBuf := [], commit := .sealed c ts }, .nothing) ∧
      d'.ss = d.ss ∧ d'.refused = d.refused := by
    unfold append appendCall
    rw [hc]
    dsimp only
    rw [if_pos rfl, WalWriter.run_of_fits (by trivial)]
    exact ⟨_, rfl, rfl, rfl⟩
  obtain ⟨d', ha, hd⟩ := ha
  exact ⟨d', hr.act (a := .append) ha rfl, hd⟩

/-- The loop that puts the batch. -/
theorem run_puts {c : Commit} {ts : ℕ} (pre es : List Entry) (hr : Run Calm s ⟨d, some p⟩)
    (hb : c.buffer.batch ts = pre ++ es) (hc : p.commit = .logged c ts pre.length) :
    Run Calm s ⟨d, some { p with
      mems := Function.update p.mems p.state.memTable ((p.mems p.state.memTable).putAll es)
      commit := .logged c ts (c.buffer.batch ts).length }⟩ := by
  induction es generalizing p pre with
  | nil =>
      rw [List.append_nil] at hb
      rw [MemTable.putAll_nil, Function.update_eq_self, hb, ← hc]
      exact hr
  | cons e es ih =>
      have hget : (c.buffer.batch ts)[pre.length]? = some e := by
        rw [hb]
        simp
      have hput : p.step d .put = some (d, { p with
          mems := Function.update p.mems p.state.memTable ((p.mems p.state.memTable).put e.1 e.2)
          commit := .logged c ts (pre.length + 1) }, .nothing) := by
        show p.put d = _
        unfold put
        rw [hc]
        dsimp only
        rw [hget]
      have h := ih (pre ++ [e]) (hr.act hput rfl) (by rw [hb]; simp) (by simp)
      simpa using h

/-- **Progress**: a commit whose records fit goes through. -/
theorem run_through {c : Commit} (hr : Run Calm s ⟨d, some p⟩) (hc : p.commit = .checked c)
    (hlt : p.oracle.nextSeq < 2 ^ 64)
    (hf : (WalCmd.batch c.tx (c.buffer.batch p.oracle.nextSeq)).Fits) :
    ∃ d', Run Calm s ⟨d', some (p.through c)⟩ ∧ d'.ss = d.ss ∧ d'.refused = d.refused := by
  have hstamp : p.step d .stamp = some (d, { p with
      oracle := p.oracle.nextTs, commit := .stamped c p.oracle.nextSeq }, .nothing) := by
    show p.stamp d = _
    unfold stamp
    rw [hc]
    exact if_pos hlt
  obtain ⟨d₁, h₁, hs₁, hr₁⟩ := run_appendBegin (hr.act hstamp rfl) rfl
  obtain ⟨d₂, h₂, hs₂, hr₂⟩ := run_appendBatch h₁ rfl hf
  have hputs := run_puts [] (c.buffer.batch p.oracle.nextSeq) h₂ rfl rfl
  obtain ⟨d₃, h₃, hs₃, hr₃⟩ := run_appendCommit hputs rfl
  have h₄ := h₃.act (a := .record) rfl rfl
  have h₅ := h₄.act (a := .publish) rfl rfl
  have h₆ := h₅.act (a := .watermark) rfl rfl
  have h₇ := h₆.act (a := .prune) rfl rfl
  exact ⟨d₃, h₇, hs₃.trans (hs₂.trans hs₁), hr₃.trans (hr₂.trans hr₁)⟩

/-- A transaction that sets keys. -/
theorem run_writes {r : Reader} {tx : UInt64} {st : State} {v : Value} (ks : List Str)
    (hr : Run Calm s ⟨d, some (p.withReader (some r))⟩) (hk : r.kind = .transaction tx)
    (hs : r.state = some st) (hu : r.consumed = false) :
    Run Calm s ⟨d, some (p.withReader (some
      { r with buffer := ks.foldl (fun b k => b.insert k v) r.buffer }))⟩ := by
  induction ks generalizing r with
  | nil => exact hr
  | cons k ks ih =>
      have hw : (p.withReader (some r)).step d (.write p.readers.length k v) = some (d,
          p.withReader (some { r with buffer := r.buffer.insert k v }), .nothing) := by
        show (p.withReader (some r)).write d p.readers.length k v = _
        unfold write
        simp only [reader_withReader, hk, hs, hu, setReader_withReader]
      exact ih (hr.act hw rfl) hk hs hu

/-- The commit of a transaction, with no other commit since the process was opened in the way. -/
theorem run_commit {r : Reader} {tx : UInt64} {st : State}
    (hr : Run Calm s ⟨d, some (p.withReader (some r))⟩) (hk : r.kind = .transaction tx)
    (hs : r.state = some st) (hu : r.consumed = false) (hb : r.buffer.isEmpty = false)
    (hc : p.commit = .free) (hrec : ∀ k, p.oracle.recent k = none) :
    Run Calm s ⟨d, some { p.withReader (some { r with consumed := true, buffer := .empty }) with
      commit := .checked ⟨tx, some p.readers.length, r.buffer⟩ }⟩ := by
  have hconf : p.oracle.conflict (some r.readTs) r.buffer = false := by
    simp [Oracle.conflict, hrec]
  have hstep : (p.withReader (some r)).step d (.commit p.readers.length) = some (d,
      { p.withReader (some { r with consumed := true, buffer := .empty }) with
        commit := .checked ⟨tx, some p.readers.length, r.buffer⟩ }, .nothing) := by
    show (p.withReader (some r)).commitTx d p.readers.length = _
    unfold commitTx
    simp only [reader_withReader, hk, hs, hu, hb, setReader_withReader, if_neg Bool.false_ne_true]
    unfold check
    simp only [withReader, hc, hconf, if_neg Bool.false_ne_true]
  exact hr.act hstep rfl

/-- A frozen memtable is written to a table, and the process ends before it is installed. -/
theorem run_writeTable (mt : ℕ) {bytes : Bytes} {m : SSTableMeta} (hr : Run Calm s ⟨d, some p⟩)
    (hfl : p.flush = .free) (hfr : p.state.frozen.getLast? = some mt)
    (hw : writeL0 (p.mems mt) = .ok (some (bytes, m))) :
    ∃ d', Run Calm s ⟨d', none⟩ ∧ d'.refused = d.refused ∧ ∃ f ∈ d'.ss, f.bytes = bytes := by
  have hpick : p.step d .pick = some (d, { p with flush := .picked mt }, .nothing) := by
    show p.pick d = _
    unfold pick
    rw [hfl, hfr]
  let f : TableFile := ⟨0, p.storage.id, bytes, newest (p.mems mt).entries⟩
  have hwrite : Process.step d { p with flush := .picked mt } .writeTable =
      some ({ d with ss := putFile f d.ss }, { p with
        storage := { p.storage with id := p.storage.id + 1 }
        flush := .renamed mt ⟨⟨bytes, m⟩, newest (p.mems mt).entries⟩
        written := p.written ++ [mt] }, .nothing) := by
    show writeTable d { p with flush := .picked mt } = _
    unfold writeTable
    dsimp only
    rw [hw]
  have hcrash := ((hr.act hpick rfl).act hwrite rfl).tail (a := .crash) (o := .nothing)
    ⟨rfl, fun h => nomatch h⟩ rfl
  exact ⟨_, hcrash, rfl, f, List.mem_append_right _ (List.mem_singleton_self f), rfl⟩

/-- A full memtable is frozen. -/
theorem run_freeze {c : Commit} {ts : ℕ} (hr : Run Calm s ⟨d, some p⟩) (hc : p.commit = .pruned c ts) :
    Run Calm s ⟨d.addLog p.nextWal, some { p with
      mems := Function.update p.mems p.nextWal (.new p.nextWal)
      state := ⟨p.nextWal, p.state.memTable :: p.state.frozen⟩
      walBuf := []
      nextWal := p.nextWal + 1
      commit := .free }⟩ := by
  have hcreate : p.step d .createLog = some (d.addLog p.nextWal, { p with
      nextWal := p.nextWal + 1, commit := .created (some (c, ts)) p.nextWal }, .nothing) := by
    show p.createLog d = _
    unfold createLog
    rw [hc]
  exact (hr.act hcreate rfl).act (a := .swap) rfl rfl

end Process

end through

end LowDB
