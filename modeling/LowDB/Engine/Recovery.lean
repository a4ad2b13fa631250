import LowDB.Engine.Files

/-! # Recovery

Every action of a process keeps `Files` and `Attached`. -/

namespace LowDB

open Layered

/-! ### Logs and memtables -/

namespace Attached

variable {wal wal' : List Log} {ss : List TableFile} {buf : Bytes} {mems : ℕ → MemTable}
  {st : State} {c c' : CommitLock} {f f' : FlushLock} {storage : DiskStorage}

/-- Steps of a commit that write nothing. -/
theorem lock (h : Attached wal ss buf mems st c f storage) (hu : c'.unsealed = c.unsealed)
    (ht : c'.tail = c.tail) (hn : c'.newLogs = c.newLogs) :
    Attached wal ss buf mems st c' f storage where
  buf := h.buf
  active l hl hid := by
    rw [hu, ht]
    exact h.active l hl hid
  frozen := h.frozen
  fresh l hl hid := h.fresh l hl (hn ▸ hid)
  tables := h.tables
  tableId := h.tableId

/-- Steps of a flush that touch neither tables nor logs, except to remove some. -/
theorem flushed {n : ℕ} (h : Attached wal ss buf mems st c f storage) (hw : wal' ⊆ wal)
    (hh : f'.held ⊆ f.held) (hn : f'.newTables = f.newTables) (hid : storage.id ≤ n) :
    Attached wal' ss buf mems st c f' { storage with id := n } where
  buf := h.buf
  active l hl := h.active l (hw hl)
  frozen l hl hm := by
    refine h.frozen l (hw hl) (List.mem_append.mpr ?_)
    exact (List.mem_append.mp hm).imp_right fun hm => hh hm
  fresh l hl := h.fresh l (hw hl)
  tables := by
    rw [hn]
    exact h.tables
  tableId t ht := (h.tableId t ht).trans_le hid

/-- A change of the active log. -/
theorem append {d : Dir} {g : Log → Log} (h : Attached d.wal ss buf mems st c f storage)
    (hid : ∀ l, (g l).id = l.id) (hn : st.memTable ∉ st.frozen ++ f.held) (hf : c'.newLogs = [])
    (hg : ∀ l ∈ d.wal, l.id = st.memTable →
      (g l).Matches (mems l.id) c'.unsealed ∧ (g l).tail = c'.tail) :
    Attached (d.alterLog st.memTable g).wal ss [] mems st c' f storage where
  buf := rfl
  active l' hl' hm := by
    obtain ⟨l, hl, rfl⟩ := Dir.mem_alterLog.mp hl'
    by_cases he : l.id = st.memTable
    · rw [if_pos he, hid]
      exact hg l hl he
    · rw [if_neg he] at hm
      exact absurd hm he
  frozen l' hl' hm := by
    obtain ⟨l, hl, rfl⟩ := Dir.mem_alterLog.mp hl'
    by_cases he : l.id = st.memTable
    · rw [if_pos he, hid, he] at hm
      exact absurd hm hn
    · rw [if_neg he] at hm ⊢
      exact h.frozen l hl hm
  fresh l' _ hm := by
    rw [hf] at hm
    exact absurd hm List.not_mem_nil
  tables := h.tables
  tableId := h.tableId

/-- An entry comes into the active memtable. -/
theorem put {cm : Commit} {ts n : ℕ} {e : Entry}
    (h : Attached wal ss buf mems st (.logged cm ts n) f storage)
    (hn : st.memTable ∉ st.frozen ++ f.held) (he : (cm.buffer.batch ts)[n]? = some e) :
    Attached wal ss buf
      (Function.update mems st.memTable ((mems st.memTable).put e.1 e.2)) st
      (.logged cm ts (n + 1)) f storage where
  buf := h.buf
  active l hl hid := by
    obtain ⟨hm, ht⟩ := h.active l hl hid
    obtain ⟨hlt, he'⟩ := List.getElem?_eq_some_iff.mp he
    have htake : (cm.buffer.batch ts).take (n + 1) = (cm.buffer.batch ts).take n ++ [e] := by
      rw [← he', List.take_append_getElem]
    refine ⟨?_, ht⟩
    unfold Log.Matches at hm ⊢
    rw [hid, CommitLock.unsealed] at hm ⊢
    rw [Function.update_self, MemTable.put_entries, map_stored_insertEntry, hm, htake,
      List.map_append, MemTable.putAll_append]
    rfl
  frozen l hl hm := by
    have hne : l.id ≠ st.memTable := fun he => hn (he ▸ hm)
    rw [Function.update_of_ne hne]
    exact h.frozen l hl hm
  fresh := h.fresh
  tables := h.tables
  tableId := h.tableId

theorem createLog {d : Dir} {o : Option (Commit × ℕ)} {next : ℕ}
    (h : Attached d.wal ss buf mems st c f storage) (hu : c.unsealed = []) (ht : c.tail = .none)
    (hlt : ∀ l ∈ d.wal, l.id < next) (hst : ∀ id ∈ st.ids ++ f.held, id < next) :
    Attached (d.addLog next).wal ss buf mems st (.created o next) f storage where
  buf := h.buf
  active l hl hid := by
    cases List.mem_append.mp hl with
    | inl hl =>
        have ha := h.active l hl hid
        rwa [hu, ht] at ha
    | inr hl =>
        have hlid : l.id = next := by rw [List.mem_singleton.mp hl]
        exact absurd (hlid.symm.trans hid) (hst st.memTable List.mem_cons_self).ne'
  frozen l hl hm := by
    cases List.mem_append.mp hl with
    | inl hl => exact h.frozen l hl hm
    | inr hl =>
        have hlid : l.id = next := by rw [List.mem_singleton.mp hl]
        exact absurd hlid (hst l.id (List.mem_cons_of_mem _ hm)).ne
  fresh l hl hm := by
    have hlid : l.id = next := List.mem_singleton.mp hm
    cases List.mem_append.mp hl with
    | inl hl => exact absurd hlid (hlt l hl).ne
    | inr hl =>
        rw [List.mem_singleton.mp hl]
        exact ⟨rfl, rfl⟩
  tables := h.tables
  tableId := h.tableId

/-- A table is renamed into place. -/
theorem renamed {mt : ℕ} {bytes : Bytes} {sst : SSTable} {es : List Entry}
    (h : Attached wal ss buf mems st c (.picked mt) storage) :
    Attached wal (putFile ⟨0, storage.id, bytes, es⟩ ss) buf mems st c (.renamed mt ⟨sst, es⟩)
      { storage with id := storage.id + 1 } where
  buf := h.buf
  active := h.active
  frozen := h.frozen
  fresh := h.fresh
  tables := by
    rw [putFile_eq h.tableId, List.reverse_append]
    exact congrArg (es :: ·) h.tables
  tableId f hf := by
    rw [putFile_eq h.tableId] at hf
    cases List.mem_append.mp hf with
    | inl hf => exact (h.tableId f hf).trans (Nat.lt_succ_self _)
    | inr hf => exact List.mem_singleton.mp hf ▸ Nat.lt_succ_self _

theorem installed {mt : ℕ} {t : Table}
    (h : Attached wal ss buf mems st c (.renamed mt t) storage) :
    Attached wal ss buf mems st c (.installed mt) (storage.install t) where
  buf := h.buf
  active := h.active
  frozen := h.frozen
  fresh := h.fresh
  tables := by
    rw [DiskStorage.tables_install]
    exact h.tables
  tableId := h.tableId

theorem retired {mt : ℕ} (h : Attached wal ss buf mems st c (.installed mt) storage)
    (hm : mt ∈ st.frozen) :
    Attached wal ss buf mems ⟨st.memTable, st.frozen.filter fun id => id ≠ mt⟩ c (.retired mt)
      storage where
  buf := h.buf
  active := h.active
  frozen l hl hid := by
    apply h.frozen l hl
    cases List.mem_append.mp hid with
    | inl hid => exact List.mem_append_left _ (List.mem_filter.mp hid).1
    | inr hid => exact List.mem_append_left _ (List.mem_singleton.mp hid ▸ hm)
  fresh := h.fresh
  tables := h.tables
  tableId := h.tableId

/-- A log without a record is that of an empty memtable. -/
theorem matches_new {l : Log} {id : ℕ} (h : l.sets = []) : l.Matches (.new id) [] := by
  unfold Log.Matches Log.memTable
  rw [h]
  rfl

theorem swap {o : Option (Commit × ℕ)} {id : ℕ}
    (h : Attached wal ss buf mems st (.created o id) f storage) (hid : id ∉ st.ids ++ f.held) :
    Attached wal ss [] (Function.update mems id (.new id)) ⟨id, st.ids⟩ .free f storage where
  buf := rfl
  active l hl hm := by
    obtain ⟨hs, ht⟩ := h.fresh l hl (List.mem_singleton.mpr hm)
    rw [hm, Function.update_self]
    exact ⟨matches_new hs, ht⟩
  frozen l hl hm := by
    have hne : l.id ≠ id := fun he => hid (he ▸ hm)
    rw [Function.update_of_ne hne]
    by_cases he : l.id = st.memTable
    · exact (h.active l hl he).1
    · exact h.frozen l hl ((List.mem_cons.mp hm).resolve_left he)
  fresh l _ hm := absurd hm List.not_mem_nil
  tables := h.tables
  tableId := h.tableId

end Attached

namespace Process

def Attached (d : Dir) (p : Process) : Prop :=
  LowDB.Attached d.wal d.ss p.walBuf p.mems p.state p.commit p.flush p.storage

variable {d d' : Dir} {p p' : Process} {a : Act} {o : Out} {rest : List ℕ}

/-! ### The logs of a process -/

/-- The active log is the newest, unless the next one has been created. -/
theorem exists_active (hi : p.Ids d rest) (hn : p.commit.newLogs = []) :
    ∃ l ls, d.wal.reverse = l :: ls ∧ l.id = p.state.memTable ∧
      ∀ x ∈ ls, x.id ≠ p.state.memTable := by
  have ho := hi.order
  have hd := hi.nodup
  rw [hn, List.nil_append] at ho hd
  rw [← List.map_reverse] at ho
  obtain ⟨l, ls, hl, hid, hls⟩ := List.map_eq_cons_iff.mp ho
  refine ⟨l, ls, hl, hid, ?_⟩
  intro x hx he
  have hmem : x.id ∈ ls.map Log.id := List.mem_map_of_mem hx
  rw [hls, he] at hmem
  exact (List.nodup_cons.mp hd).1 hmem

theorem reverse_alterLog {l : Log} {ls : List Log} {id : ℕ} {f : Log → Log}
    (h : d.wal.reverse = l :: ls) (hl : l.id = id) (hls : ∀ x ∈ ls, x.id ≠ id) :
    (d.alterLog id f).wal.reverse = f l :: ls := by
  unfold Dir.alterLog
  rw [← List.map_reverse, h, List.map_cons, if_pos hl]
  congr 1
  exact (List.map_congr_left fun x hx => if_neg (hls x hx)).trans (List.map_id _)

/-- Every memtable in use has its log. -/
theorem exists_log {id : ℕ} (hi : p.Ids d rest) (h : id ∈ p.state.ids ++ p.flush.held) :
    ∃ l ∈ d.wal, l.id = id := by
  refine List.mem_map.mp (hi.mem_wal.mpr (List.mem_append_right _ ?_))
  rw [← List.append_assoc]
  exact List.mem_append_left _ h

/-! ### Appends -/

/-- An append adds its record to the active log. -/
theorem intact_append [Crc32] {c : WalCmd} {f : Log → Log} (hF : Files d) (hA : p.Attached d)
    (hc : c.Fits) (hb : ∀ l, (f l).bytes = (p.writer d).stream ++ c.encode)
    (hlog : ∀ l ∈ d.wal, l.id = p.state.memTable →
      logOf (f l).sets (f l).tail = logOf l.sets l.tail ++ [c]) :
    ∀ l ∈ (d.alterLog p.state.memTable f).wal, l.Intact := by
  intro l' hl'
  obtain ⟨l, hl, rfl⟩ := Dir.mem_alterLog.mp hl'
  obtain ⟨hbytes, hfit⟩ := hF.intact l hl
  by_cases hid : l.id = p.state.memTable
  · rw [if_pos hid]
    unfold Log.Intact
    rw [hlog l hl hid, hb, writer, BufWriter.stream, hA.buf, ← hid, Dir.logBytes_eq hF.sorted hl,
      List.append_nil, hbytes, encodeLog_append]
    refine ⟨by simp [encodeLog], ?_⟩
    intro x hx
    cases List.mem_append.mp hx with
    | inl hx => exact hfit x hx
    | inr hx => exact List.mem_singleton.mp hx ▸ hc
  · rw [if_neg hid]
    exact ⟨hbytes, hfit⟩

/-- An append of one of the first two records of a commit. -/
theorem Files.append [Crc32] {c : WalCmd} {f : Log → Log} (hF : Files d) (hA : p.Attached d)
    (hc : c.Fits) (hid : ∀ l, (f l).id = l.id) (hset : ∀ l, (f l).sets = l.sets)
    (hb : ∀ l, (f l).bytes = (p.writer d).stream ++ c.encode)
    (hlog : ∀ l ∈ d.wal, l.id = p.state.memTable →
      logOf (f l).sets (f l).tail = logOf l.sets l.tail ++ [c]) :
    LowDB.Files (d.alterLog p.state.memTable f) := by
  have hrec : (d.alterLog p.state.memTable f).recovered = d.recovered :=
    Dir.recovered_alterLog fun l => by
      unfold Log.layer Log.memTable
      rw [hid, hset]
  exact {
    sorted := by rw [map_id_alterLog hid]; exact hF.sorted
    intact := intact_append hF hA hc hb hlog
    level := hF.level
    ids := hF.ids
    stored := hF.stored
    sub := by rw [hrec]; exact hF.sub
    reads := by rw [hrec]; exact hF.reads }

/-- The log after the commit record: all versions of the commit are in it. -/
theorem layer_commit {l : Log} {c : Commit} {ts : ℕ} {bytes : Bytes}
    (hle : ∀ e ∈ l.memTable.entries, e.1.seq.toNat < ts) (hts : ts < 2 ^ 64) :
    Log.layer { l with bytes := bytes
                       sets := l.sets ++ [⟨c.tx, c.buffer.batch ts⟩]
                       tail := .none } = l.layer ∪ layer (c.buffer.batch ts) := by
  have h := memTable_concat l ⟨c.tx, c.buffer.batch ts⟩
  unfold Log.layer
  apply (congrArg (fun t => layer t.entries) h).trans
  rw [layer_putAll (c.buffer.sorted_batch' ts).map_stored, layer_map_stored]
  intro x hx y hy he
  obtain ⟨e, hmem, rfl⟩ := List.mem_map.mp hx
  have hlt := hle y hy
  have hseq : e.1.seq.toNat = ts := Buffer.seq_of_mem_batch hts hmem
  rw [he] at hlt
  exact hlt.ne hseq

/-- What is recovered after a commit record: the versions of the commit come into the newest log. -/
theorem recovered_commit [Crc32] {c : Commit} {ts : ℕ} (hF : Files d) (hi : p.Ids d rest)
    (hph : p.Phase d) (hco : p.Conflicts) (hc : p.commit = .logged c ts (c.buffer.batch ts).length) :
    ∃ L Ls, d.recovered = L :: Ls ∧ ∀ bytes hist, Dir.recovered
      { d.alterLog p.state.memTable (fun l =>
          { l with bytes := bytes
                   sets := l.sets ++ [⟨c.tx, c.buffer.batch ts⟩]
                   tail := .none }) with hist := hist } = (L ∪ layer (c.buffer.batch ts)) :: Ls := by
  obtain ⟨l, ls, hl, hlid, hls⟩ := exists_active hi (by rw [hc]; rfl)
  unfold Phase at hph
  unfold Conflicts at hco
  rw [hc] at hph hco
  have hlt := (hco.openTs ts rfl).1
  have hrec : d.recovered = l.layer :: (ls.map Log.layer ++ d.ss.reverse.map TableFile.layer) := by
    unfold Dir.recovered
    rw [hl]
    rfl
  refine ⟨_, _, hrec, ?_⟩
  intro bytes hist
  have hsub := hF.sub l.layer (hrec ▸ List.mem_cons_self)
  have hle : ∀ e ∈ l.memTable.entries, e.1.seq.toNat < ts := fun e he =>
    (hph.hist_le rfl (hsub (mem_layer he))).trans_lt hlt
  unfold Dir.recovered
  rw [reverse_alterLog hl hlid hls, List.map_cons, layer_commit hle (hph.ts ts rfl)]
  rfl

theorem Files.commit [Crc32] {c : Commit} {ts : ℕ} {f : Log → Log} (hF : Files d)
    (hA : p.Attached d) (hi : p.Ids d rest) (hph : p.Phase d) (hco : p.Conflicts)
    (hc : p.commit = .logged c ts (c.buffer.batch ts).length)
    (hf : f = fun l =>
      { l with bytes := (p.writer d).stream ++ (WalCmd.txCommit c.tx).encode
               sets := l.sets ++ [⟨c.tx, c.buffer.batch ts⟩]
               tail := .none }) :
    LowDB.Files { d.alterLog p.state.memTable f with
      hist := d.hist ++ (c.buffer.batch ts).map Entry.version } := by
  have hid : ∀ l, (f l).id = l.id := fun l => by rw [hf]
  obtain ⟨L, Ls, hrec, hrec'⟩ := recovered_commit hF hi hph hco hc
  have hrec' := hrec' ((p.writer d).stream ++ (WalCmd.txCommit c.tx).encode)
    (d.hist ++ (c.buffer.batch ts).map Entry.version)
  rw [← hf] at hrec'
  have hsub := hF.sub
  rw [hrec] at hsub
  unfold Phase at hph
  unfold Conflicts at hco
  rw [hc] at hph hco
  have hlt := (hco.openTs ts rfl).1
  have hhist : Dir.histLayer { d.alterLog p.state.memTable f with
      hist := d.hist ++ (c.buffer.batch ts).map Entry.version } =
        d.histLayer ∪ layer (c.buffer.batch ts) := by
    ext x
    simp [Dir.histLayer, layer, Entry.version]
  exact {
    sorted := by
      have h := hF.sorted
      rwa [← map_id_alterLog hid] at h
    intact := by
      have hfits : (WalCmd.txCommit c.tx).Fits := trivial
      apply intact_append hF hA hfits (fun x => by rw [hf])
      intro x hx hxid
      have htail := (hA.active x hx hxid).2
      rw [hc] at htail
      rw [hf, htail]
      simp [logOf, CommitLock.tail, Tail.cmds, SetBatch.cmds]
    level := hF.level
    ids := hF.ids
    stored := hF.stored
    sub := by
      rw [hrec', hhist]
      intro L' hL
      cases List.mem_cons.mp hL with
      | inl hL => exact hL ▸ Set.union_subset_union_left _ (hsub _ List.mem_cons_self)
      | inr hL => exact (hsub L' (List.mem_cons_of_mem _ hL)).trans Set.subset_union_left
    reads := by
      rw [hrec', hhist]
      apply ReadsLast.commit (hrec ▸ hF.reads) hsub
      rintro k n m ⟨v, hv⟩ ⟨w, hw⟩
      rw [Buffer.time_of_layer_batch (hph.ts ts rfl) hv]
      exact (hph.hist_le rfl hw).trans_lt hlt }

/-! ### New logs and tables, and logs removed -/

theorem Files.addLog [Crc32] {id : ℕ} (hF : Files d) (hid : ∀ l ∈ d.wal, l.id < id) :
    LowDB.Files (d.addLog id) where
  sorted := by
    unfold Dir.addLog
    rw [List.map_append, List.map_singleton]
    refine List.pairwise_append.mpr ⟨hF.sorted, List.pairwise_singleton _ _, ?_⟩
    intro a ha b hb
    obtain ⟨l, hl, rfl⟩ := List.mem_map.mp ha
    exact List.mem_singleton.mp hb ▸ hid l hl
  intact l hl := by
    cases List.mem_append.mp hl with
    | inl hl => exact hF.intact l hl
    | inr hl =>
        rw [List.mem_singleton.mp hl]
        exact ⟨rfl, fun _ h => nomatch h⟩
  level := hF.level
  ids := hF.ids
  stored := hF.stored
  sub L hL := by
    rw [Dir.recovered_addLog] at hL
    cases List.mem_cons.mp hL with
    | inl hL => exact hL ▸ Set.empty_subset _
    | inr hL => exact hF.sub L hL
  reads := by
    rw [Dir.recovered_addLog]
    exact hF.reads.cons_empty

/-- A file with a new name comes last. -/
theorem recovered_putFile {f : TableFile} (hid : ∀ g ∈ d.ss, g.id < f.id) :
    Dir.recovered { d with ss := LowDB.putFile f d.ss } =
      d.wal.reverse.map Log.layer ++ f.layer :: d.ss.reverse.map TableFile.layer := by
  unfold Dir.recovered
  rw [putFile_eq hid, List.reverse_append]
  rfl

theorem Files.putFile [Crc32] {f : TableFile} {l : Log} (hF : Files d)
    (hid : ∀ g ∈ d.ss, g.id < f.id) (hlevel : f.level = 0) (hst : f.Stored) (hl : l ∈ d.wal)
    (hsub : f.layer ⊆ l.layer) : LowDB.Files { d with ss := LowDB.putFile f d.ss } := by
  have hrec := recovered_putFile hid
  have hmem : l.layer ∈ d.wal.reverse.map Log.layer :=
    List.mem_map_of_mem (List.mem_reverse.mpr hl)
  have hall : ∀ {q : TableFile → Prop}, (∀ g ∈ d.ss, q g) → q f →
      ∀ g ∈ LowDB.putFile f d.ss, q g := by
    intro q hq hqf g hg
    rw [putFile_eq hid] at hg
    cases List.mem_append.mp hg with
    | inl hg => exact hq g hg
    | inr hg => exact List.mem_singleton.mp hg ▸ hqf
  exact {
    sorted := hF.sorted
    intact := hF.intact
    level := hall hF.level hlevel
    ids := by
      show (LowDB.putFile f d.ss).Pairwise _
      rw [putFile_eq hid]
      refine List.pairwise_append.mpr ⟨hF.ids, List.pairwise_singleton _ _, ?_⟩
      intro a ha b hb
      exact List.mem_singleton.mp hb ▸ hid a ha
    stored := hall hF.stored hst
    sub := fun L hL => by
      rw [hrec] at hL
      cases List.mem_append.mp hL with
      | inl hL => exact hF.sub L (List.mem_append_left _ hL)
      | inr hL =>
          cases List.mem_cons.mp hL with
          | inl hL => exact hL ▸ hsub.trans (hF.sub _ (List.mem_append_left _ hmem))
          | inr hL => exact hF.sub L (List.mem_append_right _ hL)
    reads := by
      rw [hrec]
      exact ReadsLast.insert_below ⟨_, hmem, hsub⟩ hF.reads }

/-- The log of a retired memtable: the logs in front of it are newer, those behind it are left
over. -/
theorem wal_of_retired {mt : ℕ} (hi : p.Ids d rest) (hf : p.flush = .retired mt) :
    ∃ Fs l Gs, d.wal.reverse = Fs ++ l :: Gs ∧ l.id = mt ∧ (∀ x ∈ Fs, mt < x.id) ∧
      (∀ x ∈ Gs, x.id < mt) ∧ Gs.map Log.id = rest := by
  unfold Ids at hi
  rw [hf] at hi
  have ho := hi.order
  have hd := hi.desc
  rw [← List.append_assoc] at ho hd
  obtain ⟨Fs, Gs', hw, hFs, hGs'⟩ := List.map_eq_append_iff.mp (List.map_reverse ▸ ho)
  obtain ⟨l, Gs, rfl, hl, hGs⟩ := List.map_eq_cons_iff.mp hGs'
  obtain ⟨_, hlt, hgt⟩ := List.pairwise_append.mp hd
  refine ⟨Fs, l, Gs, hw, hl, fun x hx => ?_, fun x hx => ?_, hGs⟩
  · exact hgt x.id (hFs ▸ List.mem_map_of_mem hx) mt List.mem_cons_self
  · exact (List.pairwise_cons.mp hlt).1 x.id (hGs ▸ List.mem_map_of_mem hx)

/-- Without logs left over every log can be removed. -/
theorem removeOk_of_rest {mt : ℕ} (hi : p.Ids d []) (hf : p.flush = .retired mt) :
    RemoveOk d mt := by
  obtain ⟨Fs, l, Gs, hw, hl, hFs, _, hGs⟩ := wal_of_retired hi hf
  have hGs : Gs = [] := List.map_eq_nil_iff.mp hGs
  refine fun l' _ _ e _ => .inr fun x hx hlt => ?_
  rw [← List.mem_reverse, hw, hGs] at hx
  cases List.mem_append.mp hx with
  | inl hx => exact absurd (hFs x hx) hlt.not_gt
  | inr hx => exact absurd hlt (List.mem_singleton.mp hx ▸ hl.ge).not_gt

/-- The newest versions of the log of a retired memtable are the first table. -/
theorem top_of_retired {mt : ℕ} {l : Log} (hA : p.Attached d) (hfl : p.Flush)
    (hf : p.flush = .retired mt) (hmem : l ∈ d.wal) (hl : l.id = mt) :
    (∃ Ts, d.ss.reverse.map TableFile.layer = top l.layer :: Ts) ∨ l.layer = ∅ := by
  unfold Flush at hfl
  rw [hf] at hfl
  have hmatch := (hA.frozen l hmem (by simp [hf, FlushLock.held, hl])).layer_eq
  have htables := congrArg (List.map layer) hA.tables
  rw [hf, List.map_map, List.map_append, List.map_map] at htables
  rw [hl] at hmatch
  rw [← hmatch]
  exact htables ▸ hfl.top

theorem Files.removeLog [Crc32] {mt : ℕ} (hF : Files d) (hA : p.Attached d) (hi : p.Ids d rest)
    (hfl : p.Flush) (hf : p.flush = .retired mt) (hok : RemoveOk d mt) :
    LowDB.Files { d with wal := d.wal.filter fun l => l.id ≠ mt } := by
  obtain ⟨Fs, l, Gs, hw, hl, hFs, hGs, _⟩ := wal_of_retired hi hf
  have hlmem : l ∈ d.wal := List.mem_reverse.mp (by simp [hw])
  have hrev : (d.wal.filter fun l => l.id ≠ mt).reverse = Fs ++ Gs := by
    have hFs' : Fs.filter (fun l => l.id ≠ mt) = Fs :=
      List.filter_eq_self.mpr fun x hx => by simpa using (hFs x hx).ne'
    have hGs' : Gs.filter (fun l => l.id ≠ mt) = Gs :=
      List.filter_eq_self.mpr fun x hx => by simpa using (hGs x hx).ne
    rw [← List.filter_reverse, hw, List.filter_append, List.filter_cons_of_neg (by simpa using hl),
      hFs', hGs']
  have hrec : Dir.recovered { d with wal := d.wal.filter fun l => l.id ≠ mt } =
      Fs.map Log.layer ++ (Gs.map Log.layer ++ d.ss.reverse.map TableFile.layer) := by
    unfold Dir.recovered
    rw [hrev, List.map_append, List.append_assoc]
  have hold : d.recovered = Fs.map Log.layer ++ l.layer ::
      (Gs.map Log.layer ++ d.ss.reverse.map TableFile.layer) := by
    unfold Dir.recovered
    rw [hw, List.map_append, List.append_assoc]
    rfl
  have hsub := hF.sub
  rw [hold] at hsub
  have htop := top_of_retired hA hfl hf hlmem hl
  exact {
    sorted := by
      show ((d.wal.filter _).map Log.id).Pairwise _
      rw [map_id_filter]
      exact hF.sorted.filter _
    intact := fun x hx => hF.intact x (List.mem_filter.mp hx).1
    level := hF.level
    ids := hF.ids
    stored := hF.stored
    sub := fun L hL => by
      rw [hrec] at hL
      apply hsub L
      cases List.mem_append.mp hL with
      | inl hL => exact List.mem_append_left _ hL
      | inr hL => exact List.mem_append_right _ (List.mem_cons_of_mem _ hL)
    reads := by
      rw [hrec]
      refine ReadsLast.remove (hold ▸ hF.reads) (fun L hL => hsub L ?_) htop ?_
      · cases List.mem_cons.mp hL with
        | inl hL => exact List.mem_append_right _ (hL ▸ List.mem_cons_self)
        | inr hL => exact List.mem_append_left _ hL
      · intro k n hn
        obtain ⟨e, he, rfl⟩ := holds_log.mp ⟨n, hn⟩
        cases hok l hlmem hl e he with
        | inl h =>
            obtain ⟨x, hx, hlt, e', he', hu⟩ := h
            obtain ⟨m, hm⟩ := holds_log.mpr ⟨e', he', hu⟩
            refine .inl ⟨x.layer, List.mem_map_of_mem ?_, m, hm⟩
            rw [← List.mem_reverse, hw] at hx
            apply (List.mem_append.mp hx).resolve_right
            intro hx
            cases List.mem_cons.mp hx with
            | inl hx => exact hlt.ne' (hx ▸ hl)
            | inr hx => exact hlt.not_gt (hGs x hx)
        | inr h =>
            refine .inr ?_
            intro L hL m hm
            obtain ⟨x, hx, rfl⟩ := List.mem_map.mp hL
            obtain ⟨e', he', hu⟩ := holds_log.mp ⟨m, hm⟩
            refine h x ?_ (hGs x hx) e' he' hu
            rw [← List.mem_reverse, hw]
            exact List.mem_append_right _ (List.mem_cons_of_mem _ hx) }

/-- Every action keeps what the files hold, as long as no append fails or is refused. -/
theorem files_step [Crc32] (hF : Files d) (hA : p.Attached d) (hi : p.Ids d rest)
    (hph : p.Phase d) (hco : p.Conflicts) (hfl : p.Flush)
    (hok : ∀ mt, a = .removeLog → p.flush = .retired mt → RemoveOk d mt)
    (hs : Step d p a o d' p') (hd' : d'.refused = false) : LowDB.Files d' := by
  cases hs with
  | appendBegin hc =>
      have hfits : ∀ {tx : UInt64}, (WalCmd.txBegin tx).Fits := trivial
      refine Files.append hF hA hfits (fun _ => rfl) (fun _ => rfl) (fun _ => rfl) ?_
      intro l hl hlid
      have htail := (hA.active l hl hlid).2
      rw [hc] at htail
      rw [htail]
      simp [logOf, CommitLock.tail, Tail.cmds]
  | appendBatch hc hf =>
      refine Files.append hF hA hf (fun _ => rfl) (fun _ => rfl) (fun _ => rfl) ?_
      intro l hl hlid
      have htail := (hA.active l hl hlid).2
      rw [hc] at htail
      rw [htail]
      simp [logOf, CommitLock.tail, Tail.cmds]
  | refuse => cases hd'
  | appendCommit hc => exact Files.commit hF hA hi hph hco hc rfl
  | appendFails => cases hd'
  | createLog =>
      exact Files.addLog hF fun l hl => hi.lt _ (List.mem_map_of_mem hl)
  | @writeTable mt bytes m hf hw =>
      unfold Flush at hfl
      rw [hf] at hfl
      obtain ⟨fs, hfs⟩ := hfl
      have hmt : mt ∈ p.state.ids ++ p.flush.held := by simp [State.ids, hfs]
      obtain ⟨l, hl, hlid⟩ := exists_log hi hmt
      obtain ⟨b, hb, hbytes, hm⟩ := writeL0_some hw
      have hmatch := (hA.frozen l hl (by simp [hlid, hfs])).layer_eq
      refine Files.putFile hF hA.tableId rfl ?_ hl ?_
      · refine ⟨(p.mems mt).sorted.newest, b, hb, hbytes.symm, ?_⟩
        rw [← hbytes, ← hm]
        exact hw
      · rw [← hmatch, hlid]
        exact layer_mono (newest_sublist _).subset
  | removeLog hf => exact Files.removeLog hF hA hi hfl hf (hok _ rfl hf)
  | _ => exact hF

/-- Every action keeps what ties the files to the process. -/
theorem attached_step [Crc32] (h : p.Attached d) (hi : p.Ids d rest) (hfl : p.Flush)
    (hs : Step d p a o d' p') (hd' : d'.refused = false) : p'.Attached d' := by
  have hact := active_notMem_frozen hi
  unfold Attached at h
  cases hs with
  | set hc => rw [hc] at h; exact h.lock rfl rfl rfl
  | commit _ _ _ _ _ hc => rw [hc] at h; exact h.lock rfl rfl rfl
  | stamp hc => rw [hc] at h; exact h.lock rfl rfl rfl
  | appendBegin hc =>
      rw [hc] at h
      exact h.append (fun _ => rfl) hact rfl fun l hl hid => ⟨(h.active l hl hid).1, rfl⟩
  | appendBatch hc =>
      rw [hc] at h
      exact h.append (fun _ => rfl) hact rfl fun l hl hid => ⟨(h.active l hl hid).1, rfl⟩
  | refuse => cases hd'
  | @appendCommit c ts hc =>
      rw [hc] at h
      refine h.append (fun _ => rfl) hact rfl fun l hl hid => ⟨?_, rfl⟩
      have hm := (h.active l hl hid).1
      unfold Log.Matches at hm
      rw [CommitLock.unsealed, List.take_length] at hm
      have he := memTable_concat l ⟨c.tx, c.buffer.batch ts⟩
      exact hm.trans (congrArg MemTable.entries he).symm
  | appendFails => cases hd'
  | put hc he => rw [hc] at h; exact h.put hact he
  | record hc => rw [hc] at h; exact h.lock rfl rfl rfl
  | publish hc => rw [hc] at h; exact h.lock rfl rfl rfl
  | watermark hc => rw [hc] at h; exact h.lock rfl rfl rfl
  | prune hc => rw [hc] at h; exact h.lock rfl rfl rfl
  | finish hc => rw [hc] at h; exact h.lock rfl rfl rfl
  | freeze hc => rw [hc] at h; exact h.lock rfl rfl rfl
  | @createLog oc hc =>
      have hlt : ∀ id ∈ p.state.ids ++ p.flush.held, id < p.nextWal := by
        intro id hid
        obtain ⟨l, hl, rfl⟩ := exists_log hi hid
        exact hi.lt _ (List.mem_map_of_mem hl)
      have hw : ∀ l ∈ d.wal, l.id < p.nextWal := fun l hl => hi.lt _ (List.mem_map_of_mem hl)
      cases oc with
      | none => rw [hc] at h; exact h.createLog rfl rfl hw hlt
      | some c => rw [hc] at h; exact h.createLog rfl rfl hw hlt
  | createLogFails hc => rw [hc] at h; exact h.lock rfl rfl rfl
  | freezeFails hc => rw [hc] at h; exact h.lock rfl rfl rfl
  | swap hc =>
      unfold Ids at hi
      rw [hc] at h hi
      refine h.swap fun hid => (List.nodup_cons.mp hi.nodup).1 ?_
      show _ ∈ p.state.ids ++ (p.flush.held ++ rest)
      rw [← List.append_assoc]
      exact List.mem_append_left _ hid
  | pick hf => rw [hf] at h; exact h.flushed (fun _ h => h) (fun _ h => h) rfl le_rfl
  | writeTable hf => rw [hf] at h; exact h.renamed
  | writeNothing hf =>
      rw [hf] at h
      exact h.flushed (fun _ h => h) (fun _ h => h) rfl (Nat.le_succ _)
  | writeRefused hf =>
      rw [hf] at h
      exact h.flushed (fun _ h => h) (fun _ h => h) rfl (Nat.le_succ _)
  | writeTableFails hf =>
      rw [hf] at h
      exact h.flushed (fun _ h => h) (fun _ h => h) rfl (Nat.le_succ _)
  | install hf => rw [hf] at h; exact h.installed
  | @retire mt hf =>
      unfold Flush at hfl
      rw [hf] at h hfl
      obtain ⟨⟨fs, hfs⟩, _⟩ := hfl
      have hm : mt ∈ p.state.frozen := by rw [hfs]; exact List.mem_concat_self
      exact h.retired hm
  | removeLog hf =>
      rw [hf] at h
      exact h.flushed (fun _ h => (List.mem_filter.mp h).1) (fun _ h => nomatch h) rfl le_rfl
  | removeLogFails hf =>
      rw [hf] at h
      exact h.flushed (fun _ h => h) (fun _ h => nomatch h) rfl le_rfl
  | _ => exact h

end Process

end LowDB
