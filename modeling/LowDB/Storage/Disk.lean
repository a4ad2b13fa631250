import LowDB.Sstable.Reopen
import LowDB.Storage.Wal

/-! # The table files

`storage/src/storage.rs`.  `write_l0` writes the newest version of each user key of a memtable to a
new table at level 0, in front of all others; `load` reads the tables back, by level and within a
level from the newest file to the oldest; a lookup takes the first answer in that order.

The main result, `flush_ok_iff`, is that a memtable of accepted batches can be flushed exactly if
no block of the table outgrows its `u16` length. -/

namespace LowDB

/-! ### Files and tables -/

/-- A table file, named `{level}_{id}`.  `entries` is what its writer was given; no code reads
it. -/
structure TableFile where
  level : ℕ
  id : ℕ
  bytes : Bytes
  entries : List Entry

/-- An open table, with the entries its writer was given. -/
structure Table where
  sst : SSTable
  entries : List Entry

/-- The order of `DiskStorage::load`: by level, and within a level the newest first. -/
def TableFile.before (a b : TableFile) : Prop := a.level < b.level ∨ a.level = b.level ∧ b.id ≤ a.id

instance (a b : TableFile) : Decidable (a.before b) := by unfold TableFile.before; infer_instance

instance : Std.Total TableFile.before where
  total a b := by
    unfold TableFile.before
    omega

instance : IsTrans TableFile TableFile.before where
  trans a b c hab hbc := by
    unfold TableFile.before at *
    omega

def sortFiles (files : List TableFile) : List TableFile := files.insertionSort TableFile.before

/-- `fs::rename` of a finished file to its name. -/
def putFile (f : TableFile) (files : List TableFile) : List TableFile :=
  files.filter (fun g => ¬ (g.level = f.level ∧ g.id = f.id)) ++ [f]

theorem putFile_eq {f : TableFile} {fs : List TableFile} (h : ∀ g ∈ fs, g.id < f.id) :
    putFile f fs = fs ++ [f] := by
  unfold putFile
  rw [List.filter_eq_self.mpr]
  intro g hg
  have hne := (h g hg).ne
  simp [hne]

/-- The open tables by level, levels in ascending order. -/
abbrev Levels := List (ℕ × List Table)

/-- `tables.entry(level).or_insert_with(SSTables::new)`, changed by `f`. -/
def Levels.alter (level : ℕ) (f : List Table → List Table) : Levels → Levels
  | [] => [(level, f [])]
  | (l, ts) :: rest =>
    if level < l then (level, f []) :: (l, ts) :: rest
    else if level = l then (l, f ts) :: rest
    else (l, ts) :: Levels.alter level f rest

/-- The tables in the order in which a lookup visits them. -/
def Levels.search (levels : Levels) : List Table := levels.flatMap Prod.snd

theorem Levels.mem_search_alter {level : ℕ} {levels : Levels} {t t' : Table} :
    t' ∈ (levels.alter level fun ts => ts ++ [t]).search ↔ t' ∈ levels.search ∨ t' = t := by
  induction levels with
  | nil => simp [Levels.alter, Levels.search]
  | cons l rest ih =>
      obtain ⟨l, ts⟩ := l
      unfold Levels.alter
      unfold Levels.search at ih ⊢
      split_ifs with hlt heq
      · simp only [List.flatMap_cons, List.nil_append, List.singleton_append, List.mem_cons]
        exact or_comm
      · simp only [List.flatMap_cons, List.mem_append, List.mem_singleton]
        tauto
      · rw [List.flatMap_cons, List.mem_append, ih, ← or_assoc, ← List.mem_append,
          ← List.flatMap_cons]

structure DiskStorage where
  id : ℕ
  maxSeq : ℕ
  levels : Levels

/-! ### Writing -/

section code
variable [Crc32]

/-- `DiskStorage::write_l0` up to the rename: the bytes of the table, or `None` for an empty
memtable. -/
def writeL0 (mt : MemTable) : DbResult (Option (Bytes × SSTableMeta)) := do
  let w ← SSTableWriter.create.addAll (newest mt.iter)
  w.finish

/-- `SSTable::open`. -/
def openTable (f : TableFile) : DbResult Table := do
  let m ← SSTableMeta.read f.bytes
  return ⟨⟨f.bytes, m⟩, f.entries⟩

namespace DiskStorage

/-- The loop over the sorted files in `load`. -/
def loadTables (files : List TableFile) : DbResult (ℕ × Levels) :=
  files.foldlM (fun acc f => do
    let table ← openTable f
    return (max acc.1 table.sst.tableMeta.footer.largestSeq,
      Levels.alter f.level (fun ts => ts ++ [table]) acc.2)) (0, [])

def load (files : List TableFile) : DbResult DiskStorage := do
  let (maxSeq, levels) ← loadTables (sortFiles files)
  let maxId := (files.map TableFile.id).foldr max 0
  return ⟨maxId + 1, maxSeq, levels⟩

/-- The tables in search order. -/
def tables (d : DiskStorage) : List Table := d.levels.search

/-- The first answer of the tables. -/
def searchTables (key : Str) (seq : ℕ) : List Table → DbResult Lookup
  | [] => .ok .absent
  | t :: ts => do
    match ← t.sst.get key seq with
    | .absent => searchTables key seq ts
    | lookup => return lookup

def getSnap (d : DiskStorage) (key : Str) (seq : ℕ) : DbResult Lookup :=
  searchTables key seq d.tables

/-- `self.tables.entry(0)…insert(0, table)`. -/
def install (d : DiskStorage) (t : Table) : DiskStorage :=
  { d with levels := Levels.alter 0 (fun ts => t :: ts) d.levels }

omit [Crc32] in
theorem tables_install (d : DiskStorage) (t : Table) : (d.install t).tables = t :: d.tables := by
  unfold install tables Levels.search
  cases d.levels with
  | nil => rfl
  | cons l rest =>
      obtain ⟨l, ts⟩ := l
      rw [Levels.alter]
      by_cases h : 0 < l
      · rw [if_pos h]
        rfl
      · rw [if_neg h, if_pos (by omega)]
        rfl

omit [Crc32] in
/-- Every file is opened. -/
theorem mem_loadTables {fs : List TableFile} {r : ℕ × Levels} (h : loadTables fs = .ok r) :
    ∀ f ∈ fs, ∃ t ∈ r.2.search, openTable f = .ok t := by
  suffices hgen : ∀ acc : ℕ × Levels, fs.foldlM (fun acc f => do
        let table ← openTable f
        return (max acc.1 table.sst.tableMeta.footer.largestSeq,
          Levels.alter f.level (fun ts => ts ++ [table]) acc.2)) acc = Except.ok r →
      acc.2.search ⊆ r.2.search ∧ ∀ f ∈ fs, ∃ t ∈ r.2.search, openTable f = .ok t from
    (hgen (0, []) h).2
  clear h
  induction fs with
  | nil =>
      intro acc h
      cases h
      exact ⟨fun _ h => h, fun _ h => nomatch h⟩
  | cons f fs ih =>
      intro acc h
      rw [List.foldlM_cons] at h
      obtain ⟨acc', hacc, h⟩ := ok_of_bind h
      obtain ⟨t, ht, hacc⟩ := ok_of_bind hacc
      cases hacc
      obtain ⟨hsub, hall⟩ := ih _ h
      refine ⟨fun x hx => hsub (Levels.mem_search_alter.mpr (.inl hx)), ?_⟩
      intro g hg
      rcases List.mem_cons.mp hg with rfl | hg
      · exact ⟨t, hsub (Levels.mem_search_alter.mpr (.inr rfl)), ht⟩
      · exact hall g hg

omit [Crc32] in
theorem mem_load {fs : List TableFile} {d : DiskStorage} (h : load fs = .ok d) :
    ∀ f ∈ fs, ∃ t ∈ d.tables, openTable f = .ok t := by
  obtain ⟨r, hl, hd⟩ := ok_of_bind h
  cases hd
  exact fun f hf => mem_loadTables hl f ((List.perm_insertionSort _ _).symm.subset hf)

end DiskStorage

/-! ### Reopened tables -/

/-- **Reopening**: when the index has less than `2 ^ 32` bytes, the metadata read from the file is
that of the writer, and a storage loaded from the file answers with the writer's handle. -/
theorem written_read {es : List Entry} {file : Bytes} {m : SSTableMeta} (h : writeTable es = .ok (some (file, m)))
    (hlen : (m.index.flatMap IndexedKey.bytes).length < 2 ^ 32) :
    SSTableMeta.read file = .ok m ∧
      (∀ (fs : List TableFile) (d : DiskStorage), DiskStorage.load fs = .ok d →
        ∀ f ∈ fs, f.bytes = file → ∃ t ∈ d.tables, t.sst = ⟨file, m⟩) ∧
      (∃ e ∈ es, e.1.seq.toNat = m.footer.smallestSeq) ∧
      (∃ e ∈ es, e.1.seq.toNat = m.footer.largestSeq) ∧
      ∀ e ∈ es, m.footer.smallestSeq ≤ e.1.seq.toNat ∧ e.1.seq.toNat ≤ m.footer.largestSeq := by
  obtain ⟨_, b, rfl, rfl, rfl⟩ := writeTable_some h
  have hread := b.read_eq hlen
  refine ⟨hread, fun fs d hd f hf hbytes => ?_, exists_minSeqOf b.entries_ne_nil,
    exists_maxSeqOf b.entries_ne_nil, fun e he => ⟨minSeqOf_le he, seq_le_maxSeqOf he⟩⟩
  obtain ⟨t, ht, hopen⟩ := DiskStorage.mem_load hd f hf
  rw [openTable, hbytes, hread] at hopen
  cases hopen
  exact ⟨_, ht, rfl⟩

/-! ### Flushing a memtable -/

/-- The condition under which a memtable with these entries can be written to a table: in the
order of the entries kept, none outgrows its block, and the bloom filter has a `u32` length. -/
def FlushFits (es : List Entry) : Prop :=
  BlocksFit blockHeader (newest es) ∧ bloomLen (newest es).length < 2 ^ 32

instance (es : List Entry) : Decidable (FlushFits es) := inferInstanceAs (Decidable (_ ∧ _))

omit [Crc32] in
theorem newest_ne_nil {es : List Entry} (h : es ≠ []) : newest es ≠ [] := by
  obtain ⟨e, he⟩ := List.exists_mem_of_ne_nil _ h
  obtain ⟨x, hx, _⟩ := exists_mem_newest he
  exact List.ne_nil_of_mem hx

/-- `write_l0` on a memtable whose entries fit the log's length fields. -/
theorem writeL0_cases (mt : MemTable) (hfit : ∀ e ∈ mt.entries, e.Fits) :
    if FlushFits mt.entries then
      (mt.entries = [] ∧ writeL0 mt = .ok none) ∨
        ∃ b : Blocks, b.entries = newest mt.entries ∧
          writeL0 mt = .ok (some (b.bytes, b.tableMeta))
    else writeL0 mt = .error .tryFromInt := by
  have hsub := newest_sublist mt.entries
  have hsorted : ([] ++ newest mt.entries).Pairwise fun (a b : Entry) => a.1 ≤ b.1 :=
    Sorted.pairwise_le mt.sorted.newest
  rcases Built.create.addAll (by decide) hsorted (fun e he => hfit e (hsub.subset he)) with
    ⟨hfits, w, chunks, cur, hw, hb, hle⟩ | ⟨hfits, herr⟩
  · have hwr : writeL0 mt = w.finish := by
      rw [writeL0, MemTable.iter, hw]
      rfl
    rw [List.nil_append] at hb
    by_cases hnil : mt.entries = []
    · rw [hnil] at hb
      rw [if_pos (by rw [hnil]; decide), hwr]
      exact .inl ⟨hnil, hb.finish_nil⟩
    have hfin := hb.finish hle (newest_ne_nil hnil)
    rw [newest_newest mt.sorted] at hfin
    by_cases hl : bloomLen (newest mt.entries).length < 2 ^ 32
    · rw [if_pos hl] at hfin
      obtain ⟨b, hbe, hfin⟩ := hfin
      rw [if_pos ⟨hfits, hl⟩]
      exact .inr ⟨b, hbe, hwr.trans hfin⟩
    · rw [if_neg hl] at hfin
      rw [if_neg fun h => hl h.2]
      exact hwr.trans hfin
  · rw [if_neg fun h => hfits h.1, writeL0, MemTable.iter, herr]
    rfl

/-- A table written is one of the newest versions of the memtable. -/
theorem writeL0_some {mt : MemTable} {file : Bytes} {m : SSTableMeta}
    (h : writeL0 mt = .ok (some (file, m))) :
    ∃ b : Blocks, b.entries = newest mt.entries ∧ file = b.bytes ∧ m = b.tableMeta :=
  (writeTable_some h).2

/-- No table is written only for an empty memtable. -/
theorem writeL0_none {mt : MemTable} (h : writeL0 mt = .ok none) : mt.entries = [] := by
  by_contra hne
  exact newest_ne_nil hne (writeTable_none h)

/-! ### A whole flush -/

/-- The tables directory: the finished tables, and the ids of temporary files `0_{id}.sst.tmp`. -/
structure TablesDir where
  files : List TableFile
  tmp : List ℕ

namespace TablesDir

/-- `File::create` of the temporary file. -/
def create (dir : TablesDir) (id : ℕ) : TablesDir := { dir with tmp := id :: dir.tmp }

/-- `fs::remove_file` of the temporary file. -/
def remove (dir : TablesDir) (id : ℕ) : TablesDir :=
  { dir with tmp := dir.tmp.filter fun i => i ≠ id }

/-- `fs::rename` of the temporary file. -/
def rename (dir : TablesDir) (f : TableFile) : TablesDir :=
  { dir.remove f.id with files := putFile f dir.files }

end TablesDir

namespace DiskStorage

/-- `DiskStorage::l0`: what it returns, and the storage and the directory it leaves. -/
def l0 (d : DiskStorage) (dir : TablesDir) (mt : MemTable) :
    DbResult Bool × DiskStorage × TablesDir :=
  let id := d.id
  let d' := { d with id := id + 1 }
  match writeL0 mt with
  | .ok (some (bytes, m)) =>
    let es := newest mt.iter
    (.ok true, d'.install ⟨⟨bytes, m⟩, es⟩, (dir.create id).rename ⟨0, id, bytes, es⟩)
  | .ok none => (.ok false, d', (dir.create id).remove id)
  | .error e => (.error e, d', (dir.create id).remove id)

end DiskStorage

omit [Crc32] in
/-- In the newest versions a lookup answers as in all of them, if it lies at or after the newest
version. -/
theorem lookupIn_newest_of_le {es : List Entry} (h : Sorted es) {u : Str} {s : ℕ}
    (hex : ∃ e ∈ es, e.1.user = u) (hle : ∀ e ∈ es, e.1.user = u → e.1.seq.toNat ≤ s) :
    lookupIn ((newest es).map Entry.stored) u s = (lookupIn es u s).stored := by
  obtain ⟨e, he, hu⟩ := hex
  rcases lookupIn_newest h.pairwise_le u s with ⟨hnone, _⟩ | ⟨x, hx, hxu, _, hxmax, hxa⟩
  · exact absurd (hnone e he hu) (hle e he hu).not_gt
  have hxn : x ∈ newest es := by
    refine (mem_newest h).mpr ⟨hx, ?_⟩
    intro y hy hyu
    exact hxmax y hy (hyu.trans hxu) (hle y hy (hyu.trans hxu))
  have hst : Sorted ((newest es).map Entry.stored) := h.newest.map_stored
  rcases lookupIn_newest hst.pairwise_le u s with ⟨hnone, _⟩ | ⟨y, hy, hyu, _, hymax, hya⟩
  · exact absurd (hnone x.stored (List.mem_map_of_mem hxn) hxu) (hle x hx hxu).not_gt
  · obtain ⟨y, hym, rfl⟩ := List.mem_map.mp hy
    have hyes := ((mem_newest h).mp hym).1
    have h₁ := hxmax y hyes hyu (hle y hyes hyu)
    have h₂ := hymax x.stored (List.mem_map_of_mem hxn) hxu (hle x hx hxu)
    have hk : x.1 = y.1 := Key.eq_of_user_seq (hxu.trans hyu.symm) (h₂.antisymm h₁)
    rw [hya, hxa, h.eq_of_key hx hyes hk, Lookup.stored_ofValue]
    rfl

omit [Crc32] in
/-- Before the newest version of a user key a lookup in the newest versions finds nothing. -/
theorem lookupIn_newest_of_gt {es : List Entry} (h : Sorted es) {u : Str} {s : ℕ}
    (hgt : (∀ e ∈ es, e.1.user ≠ u) ∨ ∃ e ∈ es, e.1.user = u ∧ s < e.1.seq.toNat) :
    lookupIn ((newest es).map Entry.stored) u s = .absent := by
  have hst : Sorted ((newest es).map Entry.stored) := h.newest.map_stored
  rcases lookupIn_newest hst.pairwise_le u s with ⟨_, ha⟩ | ⟨y, hy, hyu, hys, _, _⟩
  · exact ha
  · obtain ⟨y, hym, rfl⟩ := List.mem_map.mp hy
    obtain ⟨hyes, hmax⟩ := (mem_newest h).mp hym
    rcases hgt with hne | ⟨e, he, hu, hlt⟩
    · exact absurd hyu (hne y hyes)
    · have hle : e.1.seq.toNat ≤ y.1.seq.toNat := hmax e he (hu.trans hyu.symm)
      have hys : y.1.seq.toNat ≤ s := hys
      omega

/-- Lookups in the table of a memtable: those below every version it drops are answered as by the
memtable, those above every version it keeps as absent. -/
theorem get_of_writeL0 {mt : MemTable} {file : Bytes} {m : SSTableMeta}
    (h : writeL0 mt = .ok (some (file, m))) (u : Str) (s : ℕ) :
    ((∃ e ∈ mt.entries, e.1.user = u) ∧ (∀ e ∈ mt.entries, e.1.user = u → e.1.seq.toNat ≤ s) →
        SSTable.get ⟨file, m⟩ u s = .ok (mt.getSnap u s).stored) ∧
      ((∀ e ∈ mt.entries, e.1.user ≠ u) ∨ (∃ e ∈ mt.entries, e.1.user = u ∧ s < e.1.seq.toNat) →
        SSTable.get ⟨file, m⟩ u s = .ok .absent) := by
  obtain ⟨blocks, hb, rfl, rfl⟩ := writeL0_some h
  have hget : blocks.table.get u s = .ok (lookupIn ((newest mt.entries).map Entry.stored) u s) := by
    rw [← hb]
    exact blocks.get_eq (hb ▸ mt.sorted.newest.pairwise_le) u s
  constructor
  · rintro ⟨hex, hle⟩
    rw [lookupIn_newest_of_le mt.sorted hex hle] at hget
    exact hget
  · intro hgt
    rw [lookupIn_newest_of_gt mt.sorted hgt] at hget
    exact hget

omit [Crc32] in
theorem mem_users_newest {es : List Entry} (h : Sorted es) (u : Str) :
    u ∈ (newest es).map (fun e => e.1.user) ↔ u ∈ es.map fun e => e.1.user := by
  simp only [List.mem_map]
  constructor
  · rintro ⟨e, he, rfl⟩
    exact ⟨e, ((mem_newest h).mp he).1, rfl⟩
  · rintro ⟨e, he, rfl⟩
    exact exists_mem_newest he

/-- **Flush of a memtable**: no file is left exactly for an empty memtable; otherwise the new table
has one entry for each user key, and answers as the memtable does from the newest version of a user
key on, and absent before. -/
theorem l0_ok {d d' : DiskStorage} {dir dir' : TablesDir} {mt : MemTable} {b : Bool}
    (h : d.l0 dir mt = (.ok b, d', dir')) :
    (b = false ↔ mt.isEmpty) ∧
      (b = false → d'.tables = d.tables ∧ dir' = dir.remove d.id) ∧
      (b = true → ∃ t : Table, d'.tables = t :: d.tables ∧
        dir' = dir.rename ⟨0, d.id, t.sst.file, t.entries⟩ ∧
        writeTable t.entries = .ok (some (t.sst.file, t.sst.tableMeta)) ∧
        (t.entries.map fun e => e.1.user).Nodup ∧
        (∀ u, u ∈ t.entries.map (fun e => e.1.user) ↔ u ∈ mt.entries.map fun e => e.1.user) ∧
        ∀ u s, ((∃ e ∈ mt.entries, e.1.user = u) ∧
              (∀ e ∈ mt.entries, e.1.user = u → e.1.seq.toNat ≤ s) →
            t.sst.get u s = .ok (mt.getSnap u s).stored) ∧
          ((∀ e ∈ mt.entries, e.1.user ≠ u) ∨
              (∃ e ∈ mt.entries, e.1.user = u ∧ s < e.1.seq.toNat) →
            t.sst.get u s = .ok .absent)) := by
  have hremove : (dir.create d.id).remove d.id = dir.remove d.id := by
    simp [TablesDir.create, TablesDir.remove]
  unfold DiskStorage.l0 at h
  cases hw : writeL0 mt with
  | error e => rw [hw] at h; cases h
  | ok r =>
      cases r with
      | none =>
          rw [hw] at h
          cases h
          have hnil := writeL0_none hw
          refine ⟨iff_of_true rfl ?_, fun _ => ⟨rfl, hremove⟩, fun h => nomatch h⟩
          rw [MemTable.isEmpty, hnil]
          rfl
      | some r =>
          obtain ⟨file, m⟩ := r
          rw [hw] at h
          cases h
          have hne : mt.entries ≠ [] := by
            obtain ⟨blocks, hb, -⟩ := writeL0_some hw
            intro h0
            exact blocks.entries_ne_nil (by rw [hb, h0]; rfl)
          refine ⟨iff_of_false (fun h => nomatch h) ?_, (fun h => nomatch h), fun _ =>
            ⟨⟨⟨file, m⟩, newest mt.entries⟩, DiskStorage.tables_install _ _, ?_, hw, ?_,
              mem_users_newest mt.sorted, get_of_writeL0 hw⟩⟩
          · rw [MemTable.isEmpty, List.isEmpty_iff]
            exact hne
          · rw [TablesDir.rename, hremove]
            rfl
          · exact List.pairwise_map.mpr ((newest_users mt.sorted).imp fun h => h.ne)

/-- All three appends of the call succeed, on whatever writer. -/
def SetBatch.Accepted (s : SetBatch) : Prop := ∀ c ∈ s.calls, ∀ w, (c.run w).1 = .ok ()

/-- The memtable that accepted calls have filled. -/
def memtableOf (id : ℕ) (sets : List SetBatch) : MemTable :=
  (MemTable.new id).putAll (sets.flatMap SetBatch.batch)

omit [Crc32] in
theorem SetBatch.Accepted.fits {s : SetBatch} (h : s.Accepted) : ∀ e ∈ s.batch, e.Fits := by
  have hc := h (.appendBatch s.tx s.batch) (by simp [SetBatch.calls]) WalWriter.newLog
  exact (WalWriter.run_ok_iff.mp hc).2

omit [Crc32] in
theorem fits_memtableOf (id : ℕ) {sets : List SetBatch} (h : ∀ s ∈ sets, s.Accepted) :
    ∀ e ∈ (memtableOf id sets).entries, e.Fits := by
  intro e he
  rw [memtableOf, MemTable.mem_putAll] at he
  rcases he with he | ⟨_, he⟩
  · exact absurd he List.not_mem_nil
  · obtain ⟨s, hs, hb⟩ := List.mem_flatMap.mp (List.mem_of_find?_eq_some he)
    exact (h s hs).fits e hb

theorem writeL0_ok_iff (mt : MemTable) (hfit : ∀ e ∈ mt.entries, e.Fits) :
    (∃ r, writeL0 mt = .ok r) ↔ FlushFits mt.entries := by
  have hcases := writeL0_cases mt hfit
  by_cases h : FlushFits mt.entries
  · rw [if_pos h] at hcases
    refine iff_of_true ?_ h
    rcases hcases with ⟨_, h⟩ | ⟨b, _, h⟩
    · exact ⟨_, h⟩
    · exact ⟨_, h⟩
  · rw [if_neg h] at hcases
    refine iff_of_false ?_ h
    rintro ⟨r, hr⟩
    cases hcases.symm.trans hr

/-- **What can be flushed**: a memtable of accepted batches can be written to a table exactly if
its entries fit the blocks they fall into. -/
theorem flush_ok_iff (id : ℕ) (sets : List SetBatch) (hok : ∀ s ∈ sets, s.Accepted) :
    (∃ r, writeL0 (memtableOf id sets) = .ok r) ↔ FlushFits (memtableOf id sets).entries :=
  writeL0_ok_iff _ (fits_memtableOf id hok)

end code

theorem accepted_of_fits {s : SetBatch} (h : ∀ c ∈ s.cmds, c.Fits) : s.Accepted := by
  intro c hc w
  exact WalWriter.run_ok_iff.mpr (h c.cmd (s.cmd_calls ▸ List.mem_map_of_mem hc))

theorem written_read_twoVersions :
    ∃ file m, @writeTable crc32 twoVersions = .ok (some (file, m)) ∧
      SSTableMeta.read file = .ok m := by
  obtain ⟨file, m, h, _, hlen⟩ := writeTable_twoVersions
  exact ⟨file, m, h, (@written_read crc32 _ _ _ h hlen).1⟩

theorem l0_ok_twoVersions :
    ∃ d' dir', @DiskStorage.l0 crc32 ⟨1, 0, []⟩ ⟨[], []⟩ ((MemTable.new 1).putAll twoVersions) =
        (.ok true, d', dir') ∧ ∃ t, d'.tables = [t] := by
  have h : (@DiskStorage.l0 crc32 ⟨1, 0, []⟩ ⟨[], []⟩
      ((MemTable.new 1).putAll twoVersions)).1.toOption = some true := by decide +kernel
  obtain ⟨⟨r, d', dir'⟩, hl⟩ : ∃ x, @DiskStorage.l0 crc32 ⟨1, 0, []⟩ ⟨[], []⟩
      ((MemTable.new 1).putAll twoVersions) = x := ⟨_, rfl⟩
  rw [hl] at h
  cases ok_of_toOption h
  obtain ⟨t, ht, _⟩ := (@l0_ok crc32 _ _ _ _ _ _ hl).2.2 rfl
  exact ⟨d', dir', hl, t, ht⟩

/-- Two calls whose first entry fills a block, and which then go on in the next. -/
def twoBlocks : List SetBatch :=
  [⟨1, [(⟨.ascii [0x61], 1⟩, .set (.repeated 5000 0x76)), (⟨.ascii [0x62], 1⟩, .set (.ascii [0x76]))]⟩,
    ⟨2, [(⟨.ascii [0x62], 2⟩, .delete), (⟨.ascii [0x63], 2⟩, .set (.ascii [0x76]))]⟩]

theorem twoBlocks_accepted : ∀ s ∈ twoBlocks, s.Accepted := by
  have h : ∀ s ∈ twoBlocks, ∀ c ∈ s.cmds, c.Fits := by decide +kernel
  exact fun s hs => accepted_of_fits (h s hs)

theorem flush_ok_twoBlocks : ∃ r, @writeL0 crc32 (memtableOf 3 twoBlocks) = .ok r :=
  (@flush_ok_iff crc32 3 twoBlocks twoBlocks_accepted).mpr (by decide +kernel)

/-- An entry too long for a block of its own. -/
theorem not_flushFits_singleton {e : Entry} (h : 2 ^ 16 ≤ blockHeader + e.diskSize) :
    ¬ FlushFits [e] := by
  rintro ⟨hb, _⟩
  have hs : blockSize = 4096 := rfl
  rw [show newest [e] = [e] from rfl, BlocksFit, if_pos (by omega)] at hb
  omega

/-- A key and a value of `n` bytes each. -/
def evenEntry (n : ℕ) : Entry := (⟨.repeated n 0x6b, 1⟩, .set (.repeated n 0x76))

theorem evenEntry_key_len (n : ℕ) : (evenEntry n).1.user.len = n := Str.len_repeated n 0x6b rfl

theorem evenEntry_heapSize (n : ℕ) : (evenEntry n).2.heapSize = n := Str.len_repeated n 0x76 rfl

theorem evenEntry_fits {n : ℕ} (h : n < 2 ^ 16) : (evenEntry n).Fits := by
  constructor
  · rwa [Key.Fits, evenEntry_key_len]
  · rwa [Value.Fits, evenEntry_heapSize]

theorem evenEntry_diskSize (n : ℕ) : (evenEntry n).diskSize = 2 * n + 12 := by
  rw [Entry.diskSize, Key.diskSize, Key.heapSize, Value.diskSize, evenEntry_key_len,
    evenEntry_heapSize]
  omega

/-- One call that writes a key and a value of 40000 bytes. -/
def bigSet : SetBatch := ⟨1, [evenEntry 40000]⟩

theorem bigSet_accepted : bigSet.Accepted := by
  apply accepted_of_fits
  intro c hc
  simp only [SetBatch.cmds, List.mem_cons, List.not_mem_nil, or_false] at hc
  rcases hc with rfl | rfl | rfl
  · trivial
  · exact ⟨by decide, fun e he => List.mem_singleton.mp he ▸ evenEntry_fits (by decide)⟩
  · trivial

/-- An accepted call whose memtable cannot be flushed. -/
theorem bigSet_not_flushed :
    bigSet.Accepted ∧ ¬ ∃ r, @writeL0 crc32 (memtableOf 1 [bigSet]) = .ok r := by
  have hacc : ∀ s ∈ [bigSet], s.Accepted := fun _ hs => List.mem_singleton.mp hs ▸ bigSet_accepted
  refine ⟨bigSet_accepted, ?_⟩
  rw [@writeL0_ok_iff crc32 _ (fits_memtableOf 1 hacc),
    show (memtableOf 1 [bigSet]).entries = [evenEntry 40000] from rfl]
  exact not_flushFits_singleton (by rw [evenEntry_diskSize]; decide)

end LowDB
