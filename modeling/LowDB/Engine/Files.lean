import Mathlib.Data.List.MinMax
import LowDB.Engine.Phases

/-! # What the files hold

`Files` is the invariant of a directory in which no append has failed or been refused: each log holds
whole records, each table is one a writer finished, and a search through the memtables replayed from
the logs, newest first, and then the tables, newest first, finds the last committed version of every
key.  `Attached` ties the files to the process on them: a log holds what its memtable holds, except
for the part of the commit under way.

Both are kept by every action, with one condition on the removal of a log (`RemoveOk`); opening
establishes `Attached` from `Files`. -/

namespace LowDB

open Layered

/-! ### Logs and tables as layers -/

/-- What `restore_tables` makes of the log. -/
def Log.memTable (l : Log) : MemTable := (MemTable.new l.id).putAll (committed l.sets)

def Log.layer (l : Log) : Layer Str (Option Str) := LowDB.layer l.memTable.entries

def TableFile.layer (f : TableFile) : Layer Str (Option Str) := LowDB.layer f.entries

/-- The log consists of whole records. -/
def Log.Intact (l : Log) : Prop :=
  l.bytes = encodeLog (logOf l.sets l.tail) ∧ ∀ c ∈ logOf l.sets l.tail, c.Fits

/-- All versions recorded in the log, committed or not. -/
def Log.recorded (l : Log) : List Entry := l.sets.flatMap SetBatch.batch ++ l.tail.entries

/-- The table that a writer makes of the entries. -/
def tableOf [Crc32] (es : List Entry) : DbResult (Option (Bytes × SSTableMeta)) := do
  let w ← SSTableWriter.create.addAll es
  w.finish

/-- The file is that of a finished writer. -/
def TableFile.Stored [Crc32] (f : TableFile) : Prop :=
  Sorted f.entries ∧ ∃ b : Blocks, b.entries = f.entries ∧ b.bytes = f.bytes ∧
    tableOf f.entries = .ok (some (b.bytes, b.tableMeta))

/-- The index of the table has less than 2^32 bytes. -/
def TableFile.IndexFits [Crc32] (f : TableFile) : Prop :=
  match tableOf f.entries with
  | .ok (some (_, m)) => (m.index.flatMap IndexedKey.bytes).length < 2 ^ 32
  | _ => True

instance [Crc32] (f : TableFile) : Decidable f.IndexFits := by
  unfold TableFile.IndexFits
  split <;> infer_instance

namespace Dir

/-- The committed versions. -/
def histLayer (d : Dir) : Layer Str (Option Str) := {x | x ∈ d.hist}

/-- The memtables replayed from the logs and then the tables. -/
def recovered (d : Dir) : List (Layer Str (Option Str)) :=
  d.wal.reverse.map Log.layer ++ d.ss.reverse.map TableFile.layer

end Dir

/-! ### Replaying the logs -/

theorem restoreTables_eq {ls : List Log} (h : ∀ l ∈ ls, l.Intact) (acc : Restored) :
    ∃ m, (ls.map Log.file).foldlM restoreLog acc =
      .ok ⟨acc.tables ++ ls.map Log.memTable, maxSeqOf acc.maxSeq (ls.flatMap Log.recorded), m⟩ := by
  induction ls generalizing acc with
  | nil => exact ⟨acc.maxTxId, by simp; rfl⟩
  | cons l ls ih =>
      obtain ⟨hb, hfit⟩ := h l List.mem_cons_self
      obtain ⟨m, hm⟩ := restoreLog_logOf acc l.id hfit
      obtain ⟨m', hm'⟩ := ih (fun x hx => h x (List.mem_cons_of_mem _ hx))
        ⟨acc.tables ++ [l.memTable], maxSeqOf acc.maxSeq l.recorded, m⟩
      refine ⟨m', ?_⟩
      rw [List.map_cons, List.foldlM_cons, Log.file, hb, hm]
      apply Eq.trans hm'
      rw [List.flatMap_cons, maxSeqOf_append, List.map_cons, List.append_assoc]
      rfl

/-- Two orders of the same things by descending numbers are the same. -/
theorem eq_of_perm_of_desc {α : Type} {id : α → ℕ} {xs ys : List α} (hp : xs.Perm ys)
    (hx : xs.Pairwise fun a b => id b ≤ id a) (hy : ys.Pairwise fun a b => id b < id a) :
    xs = ys := by
  refine hp.eq_of_pairwise (fun a b ha hb hab hba => ?_) hx (hy.imp fun h => h.le)
  obtain ⟨i, hi, rfl⟩ := List.getElem_of_mem (hp.subset ha)
  obtain ⟨j, hj, rfl⟩ := List.getElem_of_mem hb
  have hpw := List.pairwise_iff_getElem.mp hy
  rcases lt_trichotomy i j with hij | rfl | hij
  · exact absurd hba (hpw i j hi hj hij).not_ge
  · rfl
  · exact absurd hab (hpw j i hj hi hij).not_ge

/-- The logs are read from the newest to the oldest. -/
theorem loadWals_eq {ls : List Log} (h : (ls.map Log.id).Pairwise fun a b => a < b) :
    loadWals (ls.map Log.file) = ls.reverse.map Log.file := by
  refine @eq_of_perm_of_desc _ Prod.fst _ _ ?_ (List.pairwise_insertionSort _ _) ?_
  · exact (List.perm_insertionSort _ _).trans ((List.reverse_perm ls).map Log.file).symm
  · rw [List.pairwise_map] at h ⊢
    exact List.pairwise_reverse.mpr h

theorem restore_eq {ls : List Log} (hs : (ls.map Log.id).Pairwise fun a b => a < b)
    (h : ∀ l ∈ ls, l.Intact) :
    ∃ m, restore (ls.map Log.file) =
      .ok ⟨ls.reverse.map Log.memTable, maxSeqOf 0 (ls.reverse.flatMap Log.recorded), m⟩ := by
  obtain ⟨m, hm⟩ := restoreTables_eq (fun l hl => h l (List.mem_reverse.mp hl)) ⟨[], 0, 0⟩
  refine ⟨m, ?_⟩
  rw [restore, loadWals_eq hs]
  exact hm

/-! ### Loading the tables -/

theorem sortFiles_eq {fs : List TableFile} (hl : ∀ f ∈ fs, f.level = 0)
    (h : fs.Pairwise fun a b => a.id < b.id) : sortFiles fs = fs.reverse := by
  have hp : (sortFiles fs).Perm fs := List.perm_insertionSort _ _
  refine @eq_of_perm_of_desc _ TableFile.id _ _ (hp.trans (List.reverse_perm fs).symm) ?_
    (List.pairwise_reverse.mpr h)
  refine (List.pairwise_insertionSort TableFile.before fs).imp_of_mem fun {a b} ha hb hab => ?_
  have ha := hl a (hp.subset ha)
  have hb := hl b (hp.subset hb)
  unfold TableFile.before at hab
  omega

section code
variable [Crc32]

theorem openTable_eq {f : TableFile} (hf : f.Stored) {t : Table} (h : openTable f = .ok t) :
    t.entries = f.entries ∧ t.sst.tableMeta.footer.largestSeq = maxSeqOf 0 f.entries := by
  obtain ⟨_, b, he, hb, _⟩ := hf
  unfold openTable at h
  cases hr : SSTableMeta.read f.bytes with
  | error e => rw [hr] at h; cases h
  | ok m =>
      rw [hr] at h
      cases h
      rw [← hb] at hr
      exact ⟨rfl, by rw [b.largestSeq_of_read hr, he]⟩

omit [Crc32] in
/-- The tables of level 0 behind those already read. -/
theorem search_alter_zero {levels : Levels} {t : Table} (h : ∀ l ∈ levels, l.1 = 0)
    (hn : levels.length ≤ 1) :
    (levels.alter 0 fun ts => ts ++ [t]).search = levels.search ++ [t] ∧
      (∀ l ∈ levels.alter 0 fun ts => ts ++ [t], l.1 = 0) ∧
      (levels.alter 0 fun ts => ts ++ [t]).length ≤ 1 := by
  cases levels with
  | nil => simp [Levels.alter, Levels.search]
  | cons l rest =>
      obtain ⟨l, ts⟩ := l
      have hl : l = 0 := h (l, ts) List.mem_cons_self
      have hr : rest = [] := List.length_eq_zero_iff.mp (by simpa using hn)
      subst hl hr
      simp [Levels.alter, Levels.search]

theorem loadTables_eq {fs : List TableFile} (hl : ∀ f ∈ fs, f.level = 0)
    (hf : ∀ f ∈ fs, f.Stored) {maxSeq : ℕ} {levels : Levels}
    (h : DiskStorage.loadTables fs = .ok (maxSeq, levels)) :
    levels.search.map Table.entries = fs.map TableFile.entries ∧
      ∀ f ∈ fs, ∀ e ∈ f.entries, e.1.seq.toNat ≤ maxSeq := by
  suffices hgen : ∀ (acc r : ℕ × Levels), (∀ l ∈ acc.2, l.1 = 0) → acc.2.length ≤ 1 →
      fs.foldlM (fun acc f => do
        let table ← openTable f
        return (max acc.1 table.sst.tableMeta.footer.largestSeq,
          Levels.alter f.level (fun ts => ts ++ [table]) acc.2)) acc = Except.ok r →
      r.2.search.map Table.entries = acc.2.search.map Table.entries ++ fs.map TableFile.entries ∧
        acc.1 ≤ r.1 ∧ ∀ f ∈ fs, ∀ e ∈ f.entries, e.1.seq.toNat ≤ r.1 by
    obtain ⟨hs, _, hm⟩ := hgen (0, []) (maxSeq, levels) (by simp) (by simp) h
    exact ⟨hs, hm⟩
  clear h
  induction fs with
  | nil =>
      intro acc r _ _ h
      cases h
      exact ⟨by simp, le_rfl, by simp⟩
  | cons f fs ih =>
      intro acc r hz hn h
      have ih := ih (fun x hx => hl x (List.mem_cons_of_mem _ hx))
        (fun x hx => hf x (List.mem_cons_of_mem _ hx))
      rw [List.foldlM_cons] at h
      cases ho : openTable f with
      | error e => rw [ho] at h; cases h
      | ok t =>
          rw [ho, hl f List.mem_cons_self] at h
          obtain ⟨he, hm⟩ := openTable_eq (hf f List.mem_cons_self) ho
          obtain ⟨hs, hz', hn'⟩ := @search_alter_zero acc.2 t hz hn
          obtain ⟨hr, hle, hall⟩ := ih (max acc.1 t.sst.tableMeta.footer.largestSeq,
            Levels.alter 0 (fun ts => ts ++ [t]) acc.2) r hz' hn' h
          refine ⟨?_, (le_max_left _ _).trans hle, List.forall_mem_cons.mpr ⟨fun e hmem => ?_, hall⟩⟩
          · rw [hr, hs, List.map_append, List.map_singleton, he, List.map_cons, List.append_assoc]
            rfl
          · refine le_trans ?_ ((le_max_right _ _).trans hle)
            rw [hm]
            exact seq_le_maxSeqOf hmem

omit [Crc32] in
/-- The next table is numbered above all files. -/
theorem DiskStorage.id_lt_of_load {fs : List TableFile} {ds : DiskStorage}
    (h : DiskStorage.load fs = .ok ds) {f : TableFile} (hf : f ∈ fs) : f.id < ds.id := by
  unfold DiskStorage.load at h
  cases ht : DiskStorage.loadTables (sortFiles fs) with
  | error e => rw [ht] at h; cases h
  | ok r =>
      rw [ht] at h
      cases h
      exact Nat.lt_succ_of_le (List.le_max_of_le' 0 (List.mem_map_of_mem hf) le_rfl)

/-- What `DiskStorage::load` returns on finished tables. -/
theorem load_eq {fs : List TableFile} (hl : ∀ f ∈ fs, f.level = 0) (hf : ∀ f ∈ fs, f.Stored)
    (hid : fs.Pairwise fun a b => a.id < b.id) {ds : DiskStorage}
    (h : DiskStorage.load fs = .ok ds) :
    ds.tables.map Table.entries = fs.reverse.map TableFile.entries ∧
      (∀ f ∈ fs, ∀ e ∈ f.entries, e.1.seq.toNat ≤ ds.maxSeq) ∧ ∀ f ∈ fs, f.id < ds.id := by
  have hids := fun f (hf : f ∈ fs) => DiskStorage.id_lt_of_load h hf
  unfold DiskStorage.load at h
  rw [sortFiles_eq hl hid] at h
  cases ht : DiskStorage.loadTables fs.reverse with
  | error e => rw [ht] at h; cases h
  | ok r =>
      rw [ht] at h
      cases h
      obtain ⟨hs, hm⟩ := loadTables_eq (fun f hf => hl f (List.mem_reverse.mp hf))
        (fun f hm => hf f (List.mem_reverse.mp hm)) ht
      exact ⟨hs, fun f hf => hm f (List.mem_reverse.mpr hf), hids⟩

end code

/-! ### What a log holds -/

theorem mem_new_putAll {id : ℕ} {es : List Entry} {x : Entry} :
    x ∈ ((MemTable.new id).putAll es).entries ↔ es.find? (fun y => y.1 = x.1) = some x := by
  simp [MemTable.mem_putAll]

theorem holds_log {l : Log} {k : Str} :
    (∃ n, Holds l.layer k n) ↔ ∃ e ∈ committed l.sets, e.1.user = k := by
  unfold Log.layer
  constructor
  · rintro ⟨n, hn⟩
    obtain ⟨x, hx, hu, _⟩ := holds_layer_iff.mp hn
    exact ⟨x, List.mem_of_find?_eq_some (mem_new_putAll.mp hx), hu⟩
  · rintro ⟨e, he, hu⟩
    obtain ⟨y, hy⟩ : ∃ y, (committed l.sets).find? (fun y => y.1 = e.1) = some y :=
      Option.isSome_iff_exists.mp (List.find?_isSome.mpr ⟨e, he, by simp⟩)
    have hk : y.1 = e.1 := by simpa using List.find?_some hy
    refine ⟨_, holds_layer_iff.mpr ⟨y, mem_new_putAll.mpr (hk ▸ hy), ?_, rfl⟩⟩
    rw [hk, hu]

/-- The entries of a log are as the format keeps them. -/
theorem map_stored_log (l : Log) : l.memTable.entries.map Entry.stored = l.memTable.entries := by
  refine (List.map_congr_left fun x hx => ?_).trans (List.map_id _)
  have hx := List.mem_of_find?_eq_some (mem_new_putAll.mp hx)
  obtain ⟨s, _, hs⟩ := List.mem_flatMap.mp hx
  obtain ⟨e, _, rfl⟩ := List.mem_map.mp hs
  simp [Entry.stored]

/-- A batch of versions that the memtable does not have. -/
theorem layer_putAll {t : MemTable} {es : List Entry} (hs : Sorted es)
    (hne : ∀ x ∈ es, ∀ y ∈ t.entries, y.1 ≠ x.1) :
    layer (t.putAll es).entries = layer t.entries ∪ layer es := by
  ext x
  constructor
  · rintro ⟨y, hy, hx⟩
    cases MemTable.mem_putAll.mp hy with
    | inl hy => exact .inl ⟨y, hy, hx⟩
    | inr hy => exact .inr ⟨y, List.mem_of_find?_eq_some hy.2, hx⟩
  · rintro (⟨y, hy, hx⟩ | ⟨y, hy, hx⟩)
    · exact ⟨y, MemTable.mem_putAll.mpr (.inl hy), hx⟩
    · refine ⟨y, MemTable.mem_putAll.mpr (.inr ⟨fun z hz => hne y hy z hz, ?_⟩), hx⟩
      exact (find?_eq_some_of_sorted hs).mpr hy

theorem map_stored_insertEntry (e : Entry) (es : List Entry) :
    (insertEntry e es).map Entry.stored = insertEntry e.stored (es.map Entry.stored) := by
  induction es with
  | nil => rfl
  | cons x xs ih =>
      have hx : (Entry.stored x).1 = x.1 := rfl
      have he : (Entry.stored e).1 = e.1 := rfl
      rw [List.map_cons]
      unfold insertEntry
      rw [hx, he]
      split_ifs
      · rw [List.map_cons, ih]
      · rfl
      · rfl

theorem memTable_concat (l : Log) (s : SetBatch) :
    Log.memTable { l with sets := l.sets ++ [s], tail := .none } =
      l.memTable.putAll (s.batch.map Entry.stored) := by
  unfold Log.memTable committed
  rw [List.flatMap_append, MemTable.putAll_append]
  simp

/-! ### The invariants -/

/-- What holds of the files, with or without a process. -/
structure Files [Crc32] (d : Dir) : Prop where
  sorted : (d.wal.map Log.id).Pairwise fun a b => a < b
  intact : ∀ l ∈ d.wal, l.Intact
  level : ∀ f ∈ d.ss, f.level = 0
  ids : d.ss.Pairwise fun a b => a.id < b.id
  stored : ∀ f ∈ d.ss, f.Stored
  sub : ∀ L ∈ d.recovered, L ⊆ d.histLayer
  reads : ReadsLast d.recovered d.histLayer

namespace CommitLock

/-- The records of the commit under way in the log. -/
def tail : CommitLock → Tail
  | begun c _ => .begun c.tx
  | logged c ts _ => .logged c.tx (c.buffer.batch ts)
  | _ => .none

/-- Its entries in the active memtable, until the commit record is written. -/
def unsealed : CommitLock → List Entry
  | logged c ts n => (c.buffer.batch ts).take n
  | _ => []

end CommitLock

/-- A table in its place that the process does not know yet. -/
def FlushLock.newTables : FlushLock → List (List Entry)
  | renamed _ t => [t.entries]
  | _ => []

/-- What the log holds of the commit under way, `es`, is missing. -/
def Log.Matches (l : Log) (t : MemTable) (es : List Entry) : Prop :=
  t.entries.map Entry.stored = (l.memTable.putAll (es.map Entry.stored)).entries

/-- What holds between the files and the process on them. -/
structure Attached (wal : List Log) (ss : List TableFile) (buf : Bytes) (mems : ℕ → MemTable)
    (st : State) (c : CommitLock) (f : FlushLock) (storage : DiskStorage) : Prop where
  buf : buf = []
  active : ∀ l ∈ wal, l.id = st.memTable → l.Matches (mems l.id) c.unsealed ∧ l.tail = c.tail
  frozen : ∀ l ∈ wal, l.id ∈ st.frozen ++ f.held → l.Matches (mems l.id) []
  fresh : ∀ l ∈ wal, l.id ∈ c.newLogs → l.sets = [] ∧ l.tail = .none
  tables : ss.reverse.map TableFile.entries = f.newTables ++ storage.tables.map Table.entries
  tableId : ∀ t ∈ ss, t.id < storage.id

/-- Where the log of `mt` can be removed, although older logs are left over: of the keys it holds,
these hold none that no newer log holds. -/
def RemoveOk (d : Dir) (mt : ℕ) : Prop :=
  ∀ l ∈ d.wal, l.id = mt → ∀ e ∈ committed l.sets,
    (∃ l' ∈ d.wal, mt < l'.id ∧ ∃ e' ∈ committed l'.sets, e'.1.user = e.1.user) ∨
      ∀ l' ∈ d.wal, l'.id < mt → ∀ e' ∈ committed l'.sets, e'.1.user ≠ e.1.user

instance (d : Dir) (mt : ℕ) : Decidable (RemoveOk d mt) := by
  unfold RemoveOk
  infer_instance

theorem Log.Matches.layer_eq {l : Log} {t : MemTable} (h : l.Matches t []) :
    LowDB.layer t.entries = l.layer := by
  have h := congrArg LowDB.layer h
  rwa [layer_map_stored] at h

namespace Dir

variable {d : Dir} {id : ℕ} {f : Log → Log}

theorem mem_alterLog {l : Log} :
    l ∈ (d.alterLog id f).wal ↔ ∃ x ∈ d.wal, l = if x.id = id then f x else x := by
  unfold alterLog
  simp only [List.mem_map, eq_comm]

/-- A change of a log that keeps what it holds. -/
theorem recovered_alterLog (hf : ∀ l, (f l).layer = l.layer) :
    (d.alterLog id f).recovered = d.recovered := by
  unfold recovered alterLog
  rw [← List.map_reverse, List.map_map]
  congr 1
  apply List.map_congr_left
  intro l _
  by_cases h : l.id = id <;> simp [h, hf]

theorem recovered_addLog : (d.addLog id).recovered = ∅ :: d.recovered := by
  unfold recovered addLog
  rw [List.reverse_append, List.map_append, List.append_assoc]
  have hn : Log.layer ⟨id, [], [], .none⟩ = ∅ := layer_nil
  simp [hn]

theorem logBytes_eq (hs : (d.wal.map Log.id).Pairwise fun a b => a < b) {l : Log} (hl : l ∈ d.wal) :
    d.logBytes l.id = l.bytes := by
  unfold logBytes
  have hfind : d.wal.find? (fun x => x.id = l.id) = some l := by
    obtain ⟨as, bs, he⟩ := List.append_of_mem hl
    rw [he] at hs ⊢
    refine List.find?_eq_some_iff_append.mpr ⟨by simp, as, bs, rfl, fun a ha => ?_⟩
    rw [List.map_append] at hs
    have hlt := (List.pairwise_append.mp hs).2.2 a.id (List.mem_map_of_mem ha) l.id
      (List.mem_map_of_mem List.mem_cons_self)
    simpa using hlt.ne
  rw [hfind]
  rfl

end Dir

end LowDB
