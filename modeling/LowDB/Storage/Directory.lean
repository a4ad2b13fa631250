import Mathlib.Data.List.TakeWhile
import Mathlib.Order.Bounds.Basic
import LowDB.Sstable.Overflow
import LowDB.Storage.Disk

/-! # The tables directory by name

`storage/src/storage.rs`, with the names of the files.  `load` takes for tables the files whose name
parses as `{level}_{id}` and removes temporary ones; `l0` writes to a temporary file and renames it to
`0_{id}`.

The main result is `reload_eq`: after any calls of `l0` on a store that was loaded, loading the
directory again, in whatever order it is listed, gives the tables of the live store in the same search
order, as long as no index reaches `2^32` bytes; beyond, a table that was flushed may not be readable
again (`reload_wide`). -/

namespace LowDB

/-! ### File names -/

abbrev Name := List Char

/-- `str::split_once`. -/
def splitOnce (c : Char) : Name → Option (Name × Name)
  | [] => none
  | x :: s => if x = c then some ([], s) else (splitOnce c s).map fun p => (x :: p.1, p.2)

/-- The sign that `str::parse` allows. -/
def stripPlus : Name → Name
  | [] => []
  | x :: s => if x = '+' then s else x :: s

/-- `str::parse` to an unsigned integer of the given width. -/
def parseUInt (bits : ℕ) (s : Name) : Option ℕ :=
  let digits := stripPlus s
  if digits ≠ [] ∧ digits.all Char.isDigit ∧ Nat.ofDigitChars 10 digits 0 < 2 ^ bits then
    some (Nat.ofDigitChars 10 digits 0)
  else none

def parseName (filename : Name) : Option (ℕ × ℕ) := do
  let (level, id) ← splitOnce '_' filename
  return (← parseUInt 32 level, ← parseUInt 64 id)

/-- `Path::file_stem` and `Path::extension`. -/
def stemExt (s : Name) : Name × Option Name :=
  match s.reverse.dropWhile (· ≠ '.') with
  | [] => (s, none)
  | _ :: front =>
    if front = [] then (s, none)
    else (front.reverse, some (s.reverse.takeWhile (· ≠ '.')).reverse)

/-- The extension is `TMP_EXT`. -/
def isTmp (s : Name) : Bool := (stemExt s).2 = some "tmp".toList

/-- `format!("0_{}", id)`. -/
def l0Name (id : ℕ) : Name := '0' :: '_' :: Nat.toDigits 10 id

/-- `path.with_extension("sst.tmp")`. -/
def tmpPath (s : Name) : Name := (stemExt s).1 ++ ".sst.tmp".toList

theorem digit_of_mem {c : Char} {id : ℕ} (h : c ∈ Nat.toDigits 10 id) : c.isDigit :=
  Nat.isDigit_of_mem_toDigits (by decide) le_rfl h

theorem stripPlus_of_digits {s : Name} (h : ∀ c ∈ s, c.isDigit) : stripPlus s = s := by
  cases s with
  | nil => rfl
  | cons x s =>
      apply if_neg
      rintro rfl
      exact absurd (h '+' List.mem_cons_self) (by decide)

theorem parseUInt_toDigits {bits id : ℕ} (h : id < 2 ^ bits) :
    parseUInt bits (Nat.toDigits 10 id) = some id := by
  have hn : Nat.ofDigitChars 10 (Nat.toDigits 10 id) 0 = id := Nat.ofDigitChars_ten_toDigits
  rw [parseUInt, stripPlus_of_digits fun c hc => digit_of_mem hc]
  rw [hn, if_pos ⟨Nat.toDigits_ne_nil, List.all_eq_true.mpr fun c hc => digit_of_mem hc, h⟩]

theorem parseUInt_of_not_digit {bits : ℕ} {s : Name} {c : Char} (h : c ∈ s) (hp : c ≠ '+')
    (hd : c.isDigit = false) : parseUInt bits s = none := by
  have hmem : c ∈ stripPlus s := by
    cases s with
    | nil => cases h
    | cons x s =>
        rw [stripPlus]
        split_ifs with hx
        · exact (List.mem_cons.mp h).resolve_left fun he => hp (he.trans hx)
        · exact h
  apply if_neg
  rintro ⟨_, hall, _⟩
  rw [List.all_eq_true.mp hall c hmem] at hd
  cases hd

theorem splitOnce_l0 (s : Name) : splitOnce '_' ('0' :: '_' :: s) = some (['0'], s) := by
  rw [splitOnce, if_neg (by decide), splitOnce, if_pos rfl]
  rfl

/-- The name of a table is parsed back. -/
theorem parseName_l0Name {id : ℕ} (h : id < 2 ^ 64) : parseName (l0Name id) = some (0, id) := by
  have h0 : parseUInt 32 ['0'] = some 0 := by decide
  simp only [parseName, l0Name, splitOnce_l0, Option.bind_eq_bind, Option.bind_some, h0,
    parseUInt_toDigits h]
  rfl

theorem stemExt_l0Name (id : ℕ) : stemExt (l0Name id) = (l0Name id, none) := by
  have hdot : ∀ c ∈ (l0Name id).reverse, (c ≠ '.') = true := by
    intro c hc
    rw [List.mem_reverse, l0Name, List.mem_cons, List.mem_cons] at hc
    simp only [eq_iff_iff, iff_true]
    rintro rfl
    rcases hc with hc | hc | hc
    · exact absurd hc (by decide)
    · exact absurd hc (by decide)
    · exact absurd (digit_of_mem hc) (by decide)
  have hnil : (l0Name id).reverse.dropWhile (· ≠ '.') = [] :=
    List.dropWhile_eq_nil_iff.mpr fun c hc => by simpa using hdot c hc
  rw [stemExt, hnil]

/-- The name of a temporary file is no table's. -/
theorem parseName_tmpPath (id : ℕ) : parseName (tmpPath (l0Name id)) = none := by
  have hsplit : splitOnce '_' (tmpPath (l0Name id)) =
      some (['0'], Nat.toDigits 10 id ++ ".sst.tmp".toList) := by
    rw [tmpPath, stemExt_l0Name]
    exact splitOnce_l0 _
  have hdot : parseUInt 64 (Nat.toDigits 10 id ++ ".sst.tmp".toList) = none :=
    parseUInt_of_not_digit (c := '.') (List.mem_append_right _ (by decide)) (by decide) (by decide)
  simp only [parseName, hsplit, Option.bind_eq_bind, Option.bind_some, hdot]
  cases parseUInt 32 ['0'] <;> rfl

/-! ### The directory -/

/-- A file by name, with what its writer was given, which no code reads. -/
structure DirFile where
  name : Name
  bytes : Bytes
  entries : List Entry

/-- The file as a table, if it has the name of one. -/
def DirFile.table (f : DirFile) : Option TableFile :=
  (parseName f.name).map fun p => ⟨p.1, p.2, f.bytes, f.entries⟩

/-- What the directory `ss` lists, in some order. -/
abbrev SsDir := List DirFile

namespace SsDir

/-- `files` in `DiskStorage::load`. -/
def tables (dir : SsDir) : List TableFile := dir.filterMap DirFile.table

/-- The directory without those of the temporary files whose removal succeeded. -/
def sweep (removed : Name → Bool) (dir : SsDir) : SsDir :=
  dir.filter fun f => ¬ (f.table.isNone ∧ isTmp f.name ∧ removed f.name)

/-- `fs::remove_file`. -/
def remove (dir : SsDir) (name : Name) : SsDir := dir.filter fun f => f.name ≠ name

/-- `File::create`, or the target of `fs::rename`. -/
def put (dir : SsDir) (f : DirFile) : SsDir := dir.remove f.name ++ [f]

end SsDir

/-- The level and the number of a table file. -/
def TableFile.key (f : TableFile) : ℕ × ℕ := (f.level, f.id)

section code
variable [Crc32]

/-- `DiskStorage::load` on what the directory lists. -/
def DiskStorage.loadDir (dir : SsDir) : DbResult DiskStorage := DiskStorage.load dir.tables

/-- `DiskStorage::l0`: what it returns, and the storage and the directory it leaves. -/
def DiskStorage.l0Dir (d : DiskStorage) (dir : SsDir) (mt : MemTable) :
    DbResult Bool × DiskStorage × SsDir :=
  let id := d.id
  let d' := { d with id := id + 1 }
  let path := l0Name id
  let tmp := tmpPath path
  match writeL0 mt with
  | .ok (some (bytes, m)) =>
    let es := newest mt.iter
    let dir := (dir.put ⟨tmp, bytes, es⟩).remove tmp
    (.ok true, d'.install ⟨⟨bytes, m⟩, es⟩, dir.put ⟨path, bytes, es⟩)
  | .ok none => (.ok false, d', (dir.put ⟨tmp, [], []⟩).remove tmp)
  | .error e => (.error e, d', (dir.put ⟨tmp, [], []⟩).remove tmp)

/-- The calls of `l0` on these memtables return these results, from one storage and directory to
another. -/
def Flushes : DiskStorage → SsDir → List (MemTable × Bool) → DiskStorage → SsDir → Prop
  | d, dir, [], d', dir' => d' = d ∧ dir' = dir
  | d, dir, (mt, b) :: calls, d', dir' =>
    ∃ d₁ dir₁, d.l0Dir dir mt = (.ok b, d₁, dir₁) ∧ Flushes d₁ dir₁ calls d' dir'

end code

namespace SsDir

variable {dir : SsDir} {f : DirFile} {name : Name} {id : ℕ}

theorem tables_filter {p : DirFile → Bool} (h : ∀ f ∈ dir, p f = false → f.table = none) :
    SsDir.tables (dir.filter p) = dir.tables := by
  induction dir with
  | nil => rfl
  | cons g dir ih =>
      obtain ⟨hg, hdir⟩ := List.forall_mem_cons.mp h
      cases hp : p g with
      | false =>
          rw [List.filter_cons_of_neg (by simp [hp]), ih hdir, tables, tables,
            List.filterMap_cons_none (hg hp)]
      | true =>
          have hi : (dir.filter p).filterMap DirFile.table = dir.filterMap DirFile.table := ih hdir
          rw [List.filter_cons_of_pos hp, tables, tables, List.filterMap_cons, hi, List.filterMap_cons]

theorem tables_append (dir dir' : SsDir) : SsDir.tables (dir ++ dir') = dir.tables ++ dir'.tables :=
  List.filterMap_append

/-- Temporary files are no tables. -/
theorem tables_sweep (removed : Name → Bool) : (dir.sweep removed).tables = dir.tables := by
  apply tables_filter
  intro f _ h
  simp only [decide_eq_false_iff_not, not_not] at h
  exact Option.isNone_iff_eq_none.mp h.1

theorem tables_remove (h : ∀ f ∈ dir, f.name = name → f.table = none) :
    (dir.remove name).tables = dir.tables :=
  tables_filter fun f hf hp => h f hf (by simpa using hp)

theorem table_of_tmp (h : f.name = tmpPath (l0Name id)) : f.table = none := by
  rw [DirFile.table, h, parseName_tmpPath]
  rfl

/-- A temporary file comes and goes. -/
theorem tables_tmp (hf : f.name = tmpPath (l0Name id)) :
    ((dir.put f).remove (tmpPath (l0Name id))).tables = dir.tables := by
  have htmp : ∀ {dir : SsDir}, ∀ g ∈ dir, g.name = tmpPath (l0Name id) → g.table = none :=
    fun g _ h => table_of_tmp h
  have hone : SsDir.tables [f] = [] := List.filterMap_cons_none (table_of_tmp hf)
  rw [tables_remove htmp, put, tables_append, hone, List.append_nil, hf, tables_remove htmp]

/-- A table with a new number is added. -/
theorem tables_put (hid : id < 2 ^ 64) (hfresh : ∀ t ∈ dir.tables, t.id < id) (bytes : Bytes)
    (es : List Entry) :
    (dir.put ⟨l0Name id, bytes, es⟩).tables = dir.tables ++ [⟨0, id, bytes, es⟩] := by
  have hparse : ∀ g : DirFile, g.name = l0Name id → g.table = some ⟨0, id, g.bytes, g.entries⟩ := by
    intro g hg
    rw [DirFile.table, hg, parseName_l0Name hid]
    rfl
  have hone : SsDir.tables [⟨l0Name id, bytes, es⟩] = [⟨0, id, bytes, es⟩] :=
    List.filterMap_cons_some (hparse _ rfl)
  rw [put, tables_append, hone, tables_remove fun g hg hn => ?_]
  have hmem : (⟨0, id, g.bytes, g.entries⟩ : TableFile) ∈ dir.tables :=
    List.mem_filterMap.mpr ⟨g, hg, hparse g hn⟩
  exact absurd (hfresh _ hmem) (lt_irrefl id)

end SsDir

/-! ### The search order -/

/-- Files with distinct level and number have one order, however they are listed. -/
theorem sortFiles_perm {fs fs' : List TableFile} (h : fs.Perm fs')
    (hkey : (fs.map TableFile.key).Nodup) : sortFiles fs = sortFiles fs' := by
  have hp : (sortFiles fs).Perm fs := List.perm_insertionSort _ _
  have hp' : (sortFiles fs').Perm fs := (List.perm_insertionSort _ _).trans h.symm
  refine List.Perm.eq_of_pairwise (fun a b ha hb hab hba => ?_) (List.pairwise_insertionSort _ _)
    (List.pairwise_insertionSort _ _) (hp.trans hp'.symm)
  apply List.inj_on_of_nodup_map hkey (hp.subset ha) (hp'.subset hb)
  unfold TableFile.before at hab hba
  exact Prod.ext (show a.level = b.level by omega) (show a.id = b.id by omega)

/-- A table at level 0 with the greatest number is searched first. -/
theorem sortFiles_newest {fs : List TableFile} {f : TableFile} (hlevel : f.level = 0)
    (hid : ∀ g ∈ fs, g.id < f.id) : sortFiles (f :: fs) = f :: sortFiles fs := by
  apply List.insertionSort_cons_of_forall_rel _
  intro g hg
  have := hid g hg
  unfold TableFile.before
  omega

/-- A table put first and one put last do not meet. -/
theorem Levels.alter_comm (l : ℕ) (t x : Table) (levels : Levels) :
    (levels.alter 0 fun ts => t :: ts).alter l (fun ts => ts ++ [x]) =
      (levels.alter l fun ts => ts ++ [x]).alter 0 fun ts => t :: ts := by
  cases levels with
  | nil =>
      by_cases h : l = 0
      · subst h
        rfl
      · simp [Levels.alter, h, Nat.pos_of_ne_zero h]
  | cons p rest =>
      obtain ⟨n, ts⟩ := p
      by_cases hl : l = 0
      · subst hl
        by_cases hn : n = 0
        · subst hn
          simp [Levels.alter]
        · simp [Levels.alter, Nat.pos_of_ne_zero hn]
      · have hpos := Nat.pos_of_ne_zero hl
        by_cases hn : n = 0
        · subst hn
          simp [Levels.alter, hl]
        · have hn' := Nat.pos_of_ne_zero hn
          rcases lt_trichotomy l n with h | rfl | h
          · simp [Levels.alter, hn', hl, hpos, h]
          · simp [Levels.alter, hpos, hl]
          · simp [Levels.alter, hn', hl, h.not_gt, h.ne']

/-- One round of the loop of `load`. -/
def loadTable (acc : ℕ × Levels) (f : TableFile) : DbResult (ℕ × Levels) := do
  let table ← openTable f
  return (max acc.1 table.sst.tableMeta.footer.largestSeq,
    Levels.alter f.level (fun ts => ts ++ [table]) acc.2)

theorem foldlM_loadTable_install {fs : List TableFile} {acc r : ℕ × Levels} (t : Table) (n : ℕ)
    (h : fs.foldlM loadTable acc = .ok r) :
    ∃ m, fs.foldlM loadTable (n, acc.2.alter 0 fun ts => t :: ts) =
      .ok (m, r.2.alter 0 fun ts => t :: ts) := by
  induction fs generalizing acc n with
  | nil =>
      cases h
      exact ⟨n, rfl⟩
  | cons f fs ih =>
      rw [List.foldlM_cons] at h ⊢
      obtain ⟨acc', hacc, h⟩ := ok_of_bind h
      obtain ⟨x, hx, hacc⟩ := ok_of_bind hacc
      cases hacc
      have hround : loadTable (n, acc.2.alter 0 fun ts => t :: ts) f =
          .ok (max n x.sst.tableMeta.footer.largestSeq,
            (acc.2.alter f.level fun ts => ts ++ [x]).alter 0 fun ts => t :: ts) := by
        rw [loadTable, hx, ← Levels.alter_comm]
        rfl
      rw [hround]
      exact ih _ h

/-- Loading one more table, which is searched first. -/
theorem loadTables_cons {fs : List TableFile} {f : TableFile} {r : ℕ × Levels} {t : Table}
    (hlevel : f.level = 0) (ht : openTable f = .ok t) (h : DiskStorage.loadTables fs = .ok r) :
    ∃ m, DiskStorage.loadTables (f :: fs) = .ok (m, r.2.alter 0 fun ts => t :: ts) := by
  obtain ⟨m, hm⟩ := foldlM_loadTable_install t (max 0 t.sst.tableMeta.footer.largestSeq) h
  refine ⟨m, ?_⟩
  rw [← hm]
  show (f :: fs).foldlM loadTable (0, []) = _
  rw [List.foldlM_cons, loadTable, ht, hlevel]
  rfl

/-! ### The greatest sequence -/

/-- The sequence numbers in the tables. -/
def seqsOf (fs : List TableFile) : Set ℕ := {n | ∃ f ∈ fs, ∃ e ∈ f.entries, e.1.seq.toNat = n}

/-- The file was written by `SSTableWriter`. -/
def TableFile.Written [Crc32] (f : TableFile) : Prop :=
  ∃ m, writeTable f.entries = .ok (some (f.bytes, m))

section maxSeq
variable [Crc32]

/-- A table that can be opened has its greatest sequence number in the footer. -/
theorem largestSeq_of_open {f : TableFile} {t : Table} (hf : f.Written) (h : openTable f = .ok t) :
    IsGreatest (seqsOf [f]) t.sst.tableMeta.footer.largestSeq := by
  obtain ⟨m, hw⟩ := hf
  obtain ⟨-, b, hb, hbytes, rfl⟩ := writeTable_some hw
  obtain ⟨m', hread, h⟩ := ok_of_bind h
  cases h
  have hlargest : m'.footer.largestSeq = b.footer.largestSeq :=
    b.largestSeq_of_read (hbytes ▸ hread)
  rw [hlargest]
  have hseqs : seqsOf [f] = {n | ∃ e ∈ b.entries, e.1.seq.toNat = n} := by
    simp [seqsOf, hb]
  rw [hseqs]
  exact ⟨exists_maxSeqOf b.entries_ne_nil, fun n ⟨e, he, hn⟩ => hn ▸ seq_le_maxSeqOf he⟩

theorem foldlM_loadTable_maxSeq {fs : List TableFile} {acc r : ℕ × Levels} {S : Set ℕ}
    (hfs : ∀ f ∈ fs, f.Written) (hS : IsGreatest S acc.1) (h : fs.foldlM loadTable acc = .ok r) :
    IsGreatest (S ∪ seqsOf fs) r.1 := by
  induction fs generalizing acc S with
  | nil =>
      cases h
      have hnil : seqsOf [] = ∅ := by simp [seqsOf]
      rwa [hnil, Set.union_empty]
  | cons f fs ih =>
      rw [List.foldlM_cons] at h
      obtain ⟨acc', hacc, h⟩ := ok_of_bind h
      obtain ⟨t, ht, hacc⟩ := ok_of_bind hacc
      cases hacc
      obtain ⟨hf, hfs⟩ := List.forall_mem_cons.mp hfs
      have hcons : seqsOf (f :: fs) = seqsOf [f] ∪ seqsOf fs := by
        ext n
        simp [seqsOf]
      rw [hcons, ← Set.union_assoc]
      exact ih hfs (hS.union (largestSeq_of_open hf ht)) h

end maxSeq

/-! ### Runs -/

section runs
variable [Crc32] {d d' : DiskStorage} {dir dir' : SsDir}

/-- The tables of the directory are those of the storage, in its search order. -/
structure Tracks (d : DiskStorage) (dir : SsDir) : Prop where
  fresh : ∀ f ∈ dir.tables, f.id < d.id
  distinct : (dir.tables.map TableFile.key).Nodup
  written : ∀ f ∈ dir.tables, f.Written
  loaded : ∃ m, DiskStorage.loadTables (sortFiles dir.tables) = .ok (m, d.levels)

/-- A table whose index fits is opened as its writer left it. -/
theorem openTable_written {es : List Entry} {file : Bytes} {m : SSTableMeta}
    (h : writeTable es = .ok (some (file, m))) (hidx : indexSize blockHeader es < 2 ^ 32)
    (level id : ℕ) : openTable ⟨level, id, file, es⟩ = .ok ⟨⟨file, m⟩, es⟩ := by
  rw [← length_index_of_writeTable h] at hidx
  rw [openTable, (written_read h hidx).1]
  rfl

omit [Crc32] in
theorem id_lt_succ_max {fs : List TableFile} {f : TableFile} (h : f ∈ fs) :
    f.id < (fs.map TableFile.id).foldr max 0 + 1 := by
  induction fs with
  | nil => cases h
  | cons g fs ih =>
      rw [List.map_cons, List.foldr_cons]
      rcases List.mem_cons.mp h with rfl | h
      · omega
      · have := ih h
        omega

/-- Without a new table. -/
theorem Tracks.congr (h : Tracks d dir) (hid : d.id ≤ d'.id) (hl : d'.levels = d.levels)
    (ht : dir'.tables = dir.tables) : Tracks d' dir' := by
  refine ⟨?_, ?_, ?_, ?_⟩
  · rw [ht]
    exact fun f hf => (h.fresh f hf).trans_le hid
  · rw [ht]
    exact h.distinct
  · rw [ht]
    exact h.written
  · rw [ht, hl]
    exact h.loaded

theorem tracks_load {removed : Name → Bool} (hkey : (dir.tables.map TableFile.key).Nodup)
    (hw : ∀ f ∈ dir.tables, f.Written) (h : DiskStorage.loadDir dir = .ok d) :
    Tracks d (dir.sweep removed) := by
  obtain ⟨⟨m, levels⟩, hl, hd⟩ := ok_of_bind h
  cases hd
  have ht : Tracks ⟨(dir.tables.map TableFile.id).foldr max 0 + 1, m, levels⟩ dir :=
    ⟨fun f hf => id_lt_succ_max hf, hkey, hw, m, hl⟩
  exact ht.congr le_rfl rfl (SsDir.tables_sweep ..)

/-- With a new table, which comes first. -/
theorem Tracks.install {f : TableFile} {m : SSTableMeta} (h : Tracks d dir) (hlevel : f.level = 0)
    (hid : f.id = d.id) (hw : writeTable f.entries = .ok (some (f.bytes, m)))
    (ho : openTable f = .ok ⟨⟨f.bytes, m⟩, f.entries⟩) (ht : dir'.tables = dir.tables ++ [f]) :
    Tracks (DiskStorage.install { d with id := d.id + 1 } ⟨⟨f.bytes, m⟩, f.entries⟩) dir' := by
  have hperm : dir'.tables.Perm (f :: dir.tables) := ht ▸ List.perm_append_comm
  have hfresh : ∀ g ∈ dir.tables, g.id < f.id := hid ▸ h.fresh
  have hdistinct : (dir'.tables.map TableFile.key).Nodup := by
    rw [(hperm.map _).nodup_iff]
    refine List.nodup_cons.mpr ⟨?_, h.distinct⟩
    intro hm
    obtain ⟨g, hg, hk⟩ := List.mem_map.mp hm
    exact (hfresh g hg).ne (congrArg Prod.snd hk)
  refine ⟨?_, hdistinct, ?_, ?_⟩
  · intro g hg
    cases List.mem_cons.mp (hperm.subset hg) with
    | inl hg => exact Nat.lt_succ_of_le (hg ▸ hid.le)
    | inr hg => exact Nat.lt_succ_of_lt (h.fresh g hg)
  · intro g hg
    cases List.mem_cons.mp (hperm.subset hg) with
    | inl hg => exact hg ▸ ⟨m, hw⟩
    | inr hg => exact h.written g hg
  · obtain ⟨n, hloaded⟩ := h.loaded
    rw [sortFiles_perm hperm hdistinct, sortFiles_newest hlevel hfresh]
    exact loadTables_cons hlevel ho hloaded

/-- What a call of `l0` that succeeds adds to the directory. -/
theorem tracks_l0Dir {mt : MemTable} {b : Bool} (h : Tracks d dir) (hid : d.id < 2 ^ 64)
    (hidx : indexSize blockHeader (newest mt.entries) < 2 ^ 32)
    (hl : d.l0Dir dir mt = (.ok b, d', dir')) :
    Tracks d' dir' ∧ ∃ new, dir'.tables = dir.tables ++ new ∧
      new.map TableFile.entries = if b then [newest mt.entries] else [] := by
  have htmp (bytes : Bytes) (es : List Entry) :
      SsDir.tables ((dir.put ⟨tmpPath (l0Name d.id), bytes, es⟩).remove (tmpPath (l0Name d.id))) =
        dir.tables := SsDir.tables_tmp rfl
  unfold DiskStorage.l0Dir at hl
  cases hw : writeL0 mt with
  | error e =>
      rw [hw] at hl
      cases hl
  | ok r =>
      cases r with
      | none =>
          rw [hw] at hl
          cases hl
          refine ⟨h.congr (Nat.le_succ _) rfl (htmp [] []), [], ?_, rfl⟩
          rw [htmp, List.append_nil]
      | some r =>
          obtain ⟨bytes, m⟩ := r
          rw [hw] at hl
          cases hl
          have hfresh := (htmp bytes (newest mt.iter)).symm ▸ h.fresh
          have ht := SsDir.tables_put hid hfresh bytes (newest mt.iter)
          rw [htmp] at ht
          have hwrite : writeTable (newest mt.entries) = .ok (some (bytes, m)) := hw
          exact ⟨h.install rfl rfl hwrite (openTable_written hwrite hidx 0 d.id) ht, [_], ht, rfl⟩

theorem l0Dir_id (d : DiskStorage) (dir : SsDir) (mt : MemTable) : (d.l0Dir dir mt).2.1.id = d.id + 1 := by
  unfold DiskStorage.l0Dir
  rcases writeL0 mt with e | _ | ⟨bytes, m⟩ <;> rfl

/-- Every call takes a number. -/
theorem flushes_id {calls : List (MemTable × Bool)} (h : Flushes d dir calls d' dir') :
    d'.id = d.id + calls.length := by
  induction calls generalizing d dir with
  | nil =>
      obtain ⟨rfl, rfl⟩ := h
      rfl
  | cons c calls ih =>
      obtain ⟨d₁, dir₁, hl, h⟩ := h
      have h₁ := l0Dir_id d dir c.1
      rw [hl] at h₁
      rw [ih h, h₁, List.length_cons]
      omega

theorem tracks_flushes {calls : List (MemTable × Bool)} (h : Tracks d dir)
    (hrun : Flushes d dir calls d' dir') (hid : d'.id < 2 ^ 64)
    (hidx : ∀ c ∈ calls, indexSize blockHeader (newest c.1.entries) < 2 ^ 32) :
    Tracks d' dir' ∧ ∃ new, dir'.tables = dir.tables ++ new ∧
      new.map TableFile.entries = (calls.filter Prod.snd).map fun c => newest c.1.entries := by
  induction calls generalizing d dir with
  | nil =>
      obtain ⟨rfl, rfl⟩ := hrun
      exact ⟨h, [], (List.append_nil _).symm, rfl⟩
  | cons c calls ih =>
      obtain ⟨mt, b⟩ := c
      obtain ⟨d₁, dir₁, hl, hrun⟩ := hrun
      obtain ⟨hc, hcalls⟩ := List.forall_mem_cons.mp hidx
      have hcount : d₁.id = d.id + 1 := by
        have hid := l0Dir_id d dir mt
        rwa [hl] at hid
      have hlast := flushes_id hrun
      obtain ⟨h₁, new₁, hnew₁, hes₁⟩ := tracks_l0Dir h (by omega) hc hl
      obtain ⟨h', new, hnew, hes⟩ := ih h₁ hrun hcalls
      refine ⟨h', new₁ ++ new, by rw [hnew, hnew₁, List.append_assoc], ?_⟩
      rw [List.map_append, hes₁, hes]
      cases b <;> rfl

end runs

/-- **Reloading**: after any calls of `l0` that succeed on a store that was loaded, each with an index
below `2^32` bytes, the directory loads again, in whatever order it is listed, to the same tables in the
same search order.  The calls have added one table each, or none for an empty memtable, and replaced
none; the next number is unused in both stores; and the reloaded store has the greatest sequence number
of all tables. -/
theorem reload_eq [Crc32] {dir dir' listing : SsDir} {removed : Name → Bool} {d d' : DiskStorage}
    {calls : List (MemTable × Bool)} (hkey : (dir.tables.map TableFile.key).Nodup)
    (hw : ∀ f ∈ dir.tables, f.Written) (hload : DiskStorage.loadDir dir = .ok d)
    (hrun : Flushes d (dir.sweep removed) calls d' dir') (hid : d'.id < 2 ^ 64)
    (hidx : ∀ c ∈ calls, indexSize blockHeader (newest c.1.entries) < 2 ^ 32)
    (hlist : listing.Perm dir') :
    ∃ r, DiskStorage.loadDir listing = .ok r ∧ r.levels = d'.levels ∧
      (∀ u s, r.getSnap u s = d'.getSnap u s) ∧
      (∃ new, dir'.tables = dir.tables ++ new ∧
        new.map TableFile.entries = (calls.filter Prod.snd).map fun c => newest c.1.entries) ∧
      (∀ f ∈ dir'.tables, f.id < r.id ∧ f.id < d'.id) ∧
      IsGreatest ({0} ∪ seqsOf dir'.tables) r.maxSeq := by
  obtain ⟨ht, new, hnew, hes⟩ := tracks_flushes (tracks_load hkey hw hload) hrun hid hidx
  rw [SsDir.tables_sweep] at hnew
  have hperm : listing.tables.Perm dir'.tables := hlist.filterMap _
  obtain ⟨m, hm⟩ := ht.loaded
  have hsort := sortFiles_perm hperm.symm ht.distinct
  have hr : DiskStorage.loadDir listing =
      .ok ⟨(listing.tables.map TableFile.id).foldr max 0 + 1, m, d'.levels⟩ := by
    simp only [DiskStorage.loadDir, DiskStorage.load, ← hsort, hm, bind, Except.bind]
    rfl
  refine ⟨_, hr, rfl, fun u s => rfl, ⟨new, hnew, hes⟩, fun f hf => ⟨?_, ht.fresh f hf⟩, ?_⟩
  · exact id_lt_succ_max (hperm.symm.subset hf)
  · have hsorted : (sortFiles dir'.tables).Perm dir'.tables := List.perm_insertionSort _ _
    have hzero : IsGreatest {0} ((0, []) : ℕ × Levels).1 := isGreatest_singleton
    have hmax := foldlM_loadTable_maxSeq (fun f hf => ht.written f (hsorted.subset hf)) hzero hm
    have hseqs : seqsOf (sortFiles dir'.tables) = seqsOf dir'.tables := by
      ext n
      exact exists_congr fun f => and_congr_left fun _ => hsorted.mem_iff
    rwa [hseqs] at hmax

/-- The calls of `l0` on these memtables, where they return these results. -/
def flushAll [Crc32] : DiskStorage → SsDir → List (MemTable × Bool) → Option (DiskStorage × SsDir)
  | d, dir, [] => some (d, dir)
  | d, dir, (mt, b) :: calls =>
    match d.l0Dir dir mt with
    | (.ok b', d', dir') => if b' = b then flushAll d' dir' calls else none
    | _ => none

theorem flushes_of_flushAll [Crc32] {d : DiskStorage} {dir : SsDir} {calls : List (MemTable × Bool)}
    {r : DiskStorage × SsDir} (h : flushAll d dir calls = some r) : Flushes d dir calls r.1 r.2 := by
  induction calls generalizing d dir with
  | nil => exact Option.some.inj h ▸ ⟨rfl, rfl⟩
  | cons c calls ih =>
      unfold flushAll at h
      split at h
      case h_1 b' d₁ dir₁ hl =>
          split_ifs at h with hb
          exact ⟨d₁, dir₁, hb ▸ hl, ih h⟩
      case h_2 => cases h

/-- A table on level 1 and a temporary file. -/
def olderDir (file : Bytes) : SsDir :=
  [⟨['1', '_', '3'], file, twoVersions⟩, ⟨tmpPath (l0Name 4), [], []⟩]

/-- Two tables, and an empty memtable in between. -/
def threeCalls : List (MemTable × Bool) :=
  [((MemTable.new 1).putAll [(⟨.ascii [0x6a], 3⟩, .set (.ascii [0x76])), (⟨.ascii [0x6b], 4⟩, .delete)], true),
    (MemTable.new 2, false),
    ((MemTable.new 3).putAll [(⟨.ascii [0x6b], 5⟩, .set (.ascii [0x77]))], true)]

def reloadThreeCalls : Option ((Bytes × SSTableMeta) × DiskStorage × DiskStorage × SsDir) := do
  let w ← (@writeTable crc32 twoVersions).toOption
  let t ← w
  let d ← (DiskStorage.loadDir (olderDir t.1)).toOption
  let r ← @flushAll crc32 d ((olderDir t.1).sweep fun _ => true) threeCalls
  return (t, d, r)

/-- The directory has three tables in the end, and is listed in the reverse order. -/
theorem reload_eq_threeCalls : ∃ (file : Bytes) (d d' : DiskStorage) (dir' : SsDir) (r : DiskStorage),
    DiskStorage.loadDir (olderDir file) = .ok d ∧
      @Flushes crc32 d ((olderDir file).sweep fun _ => true) threeCalls d' dir' ∧
      DiskStorage.loadDir dir'.reverse = .ok r ∧ r.levels = d'.levels := by
  have h : reloadThreeCalls.isSome := by decide +kernel
  obtain ⟨⟨t, d, d', dir'⟩, h⟩ := Option.isSome_iff_exists.mp h
  unfold reloadThreeCalls at h
  simp only [bind, Option.bind_eq_some_iff] at h
  obtain ⟨_, hw, _, rfl, _, hd, _, hr, hx⟩ := h
  cases hx
  have hload := ok_of_toOption hd
  have hrun := @flushes_of_flushAll crc32 _ _ _ _ hr
  have hid : d.id = 4 := by
    obtain ⟨_, _, he⟩ := ok_of_bind hload
    cases he
    rfl
  have hid' : d'.id = d.id + 3 := @flushes_id crc32 _ _ _ _ _ hrun
  have hwritten : ∀ f ∈ SsDir.tables (olderDir t.1), @TableFile.Written crc32 f := by
    intro f hf
    rw [List.mem_singleton.mp hf]
    exact ⟨t.2, ok_of_toOption hw⟩
  obtain ⟨r, hl, hlevels, -⟩ := @reload_eq crc32 (olderDir t.1) dir' dir'.reverse (fun _ => true) d d'
    threeCalls (List.nodup_singleton _) hwritten hload hrun (by rw [hid', hid]; decide) (by decide +kernel)
    (List.reverse_perm _)
  exact ⟨t.1, d, d', dir', r, hload, hrun, hl, hlevels⟩

/-! ### A table that cannot be opened -/

/-- A memtable of wide entries is written to a table that cannot be opened, if the index length that
the footer is left with is less than the size of an entry. -/
theorem writeL0_wide [Crc32] {mt : MemTable} {n : ℕ} (hfit : ∀ e ∈ mt.entries, e.Fits)
    (hwide : ∀ e ∈ mt.entries, e.Wide) (hkey : ∀ e ∈ mt.entries, e.1.diskSize = n)
    (hpos : mt.entries ≠ []) (hle : (newest mt.entries).length ≤ 2 ^ 20)
    (hlt : (newest mt.entries).length * (n + 10) % 2 ^ 32 < n + 10) :
    ∃ file m, writeL0 mt = .ok (some (file, m)) ∧ ∃ e, SSTableMeta.read file = .error e := by
  have hsub := (newest_sublist mt.entries).subset
  have hbloom : bloomLen (newest mt.entries).length < 2 ^ 32 := by
    unfold bloomLen BloomFilter.byteCount bitsPerKey
    omega
  have hflush : FlushFits mt.entries := ⟨blocksFit_of_wide fun e he => hwide e (hsub he), hbloom⟩
  have hcases := writeL0_cases mt hfit
  rw [if_pos hflush] at hcases
  cases hcases with
  | inl h => exact absurd h.1 hpos
  | inr h =>
      obtain ⟨b, hb, hw⟩ := h
      have hbw : ∀ e ∈ b.entries, e.Wide := fun e he => hwide e (hsub (hb ▸ he))
      have hbk : ∀ e ∈ b.entries, e.1.diskSize = n := fun e he => hkey e (hsub (hb ▸ he))
      refine ⟨_, _, hw, b.read_error ?_ ?_⟩
      · apply b.indexOff_lt_of_wide hbw
        rw [hb]
        omega
      · intro c hc
        have hmem : c ∈ b.chunks := List.mem_of_mem_head? hc
        obtain ⟨e, he, hk⟩ := lastKeyOf_mem (b.ne_nil c hmem)
        rw [b.length_indexBytes_of_wide hbw hbk, hb, ← hk, hbk e (List.mem_flatten.mpr ⟨c, hmem, he⟩)]
        exact hlt

/-- The last digit of `n` in base 64, as an ASCII character. -/
def digit (n : ℕ) : UInt8 := UInt8.ofNat (n % 64)

theorem digit_toNat (n : ℕ) : (digit n).toNat = n % 64 := by
  unfold digit
  rw [UInt8.toNat_ofNat']
  omega

theorem digit_lt (n : ℕ) : digit n < 0x80 := by
  have hn := digit_toNat n
  rw [UInt8.lt_iff_toNat_lt, hn]
  exact (Nat.mod_lt n (by decide)).trans (by decide)

/-- A key of 65517 bytes that starts with three digits of `n`. -/
def wideKey (n : ℕ) : Str :=
  .ascii (digit (n / 4096) :: digit (n / 64) :: digit n :: List.replicate 65514 0x6b) (by
    simp only [List.all_eq_true, List.forall_mem_cons, decide_eq_true_eq]
    refine ⟨digit_lt _, digit_lt _, digit_lt _, ?_⟩
    intro b hb
    rw [List.eq_of_mem_replicate hb]
    decide)

theorem wideKey_len (n : ℕ) : (wideKey n).len = 65517 := by
  unfold wideKey Str.len Str.ascii
  rw [List.length_cons, List.length_cons, List.length_cons, List.length_replicate]

theorem wideKey_inj {m n : ℕ} (hm : m < 2 ^ 18) (hn : n < 2 ^ 18) (h : wideKey m = wideKey n) :
    m = n := by
  have hb := congrArg Str.bytes h
  unfold wideKey Str.ascii at hb
  simp only [List.cons.injEq] at hb
  obtain ⟨h₁, h₂, h₃, -⟩ := hb
  have h₁ := congrArg UInt8.toNat h₁
  have h₂ := congrArg UInt8.toNat h₂
  have h₃ := congrArg UInt8.toNat h₃
  rw [digit_toNat, digit_toNat] at h₁ h₂ h₃
  omega

theorem wide_of_key {e : Entry} {n : ℕ} (hk : e.1.user = wideKey n) (hv : e.2 = .set .empty) :
    e.Fits ∧ e.Wide ∧ e.1.diskSize = 65527 := by
  have hlen : e.1.user.len = 65517 := by rw [hk, wideKey_len]
  have hsize : e.2.heapSize = 0 := by rw [hv]; rfl
  have hkey : e.1.diskSize = 65527 := by rw [Key.diskSize, Key.heapSize, hlen]
  have hd : e.diskSize = 65529 := by rw [Entry.diskSize, hkey, Value.diskSize, hsize]
  refine ⟨⟨?_, ?_⟩, ⟨?_, ?_⟩, hkey⟩
  · rw [Key.Fits, hlen]
    decide
  · rw [Value.Fits, hsize]
    decide
  · rw [hd]
    decide
  · rw [hd]
    decide

/-- A transaction that sets the wide keys from 1 to `n`, after the call that has set the key 0. -/
def wideKeys (n : ℕ) : List Str := (List.range n).map fun i => wideKey (i + 1)

theorem nodup_wideKeys {n : ℕ} (h : n < 2 ^ 17) : (wideKey 0 :: wideKeys n).Nodup := by
  refine List.nodup_cons.mpr ⟨?_, ?_⟩
  · intro hm
    obtain ⟨i, hi, he⟩ := List.mem_map.mp hm
    have hi := List.mem_range.mp hi
    have h0 := wideKey_inj (by omega) (by omega) he
    omega
  · refine List.Nodup.map_on (fun i hi j hj he => ?_) List.nodup_range
    have hi := List.mem_range.mp hi
    have hj := List.mem_range.mp hj
    have h1 := wideKey_inj (by omega) (by omega) he
    omega

/-- A memtable with 65536 keys that fill a block each. -/
def wideMemTable : MemTable :=
  (MemTable.new 1).putAll ((wideKey 0 :: wideKeys 65535).map fun u => (⟨u, 1⟩, .set .empty))

theorem mem_wideMemTable {e : Entry} (h : e ∈ wideMemTable.entries) :
    ∃ n, e.1.user = wideKey n ∧ e.2 = .set .empty := by
  rcases MemTable.mem_of_putAll h with h | h
  · cases h
  · obtain ⟨u, hu, rfl⟩ := List.mem_map.mp h
    rcases List.mem_cons.mp hu with rfl | hu
    · exact ⟨0, rfl, rfl⟩
    · obtain ⟨i, -, rfl⟩ := List.mem_map.mp hu
      exact ⟨i + 1, rfl, rfl⟩

theorem length_newest_wideMemTable : (newest wideMemTable.entries).length = 65536 := by
  have hn : (wideKey 0 :: wideKeys 65535).Nodup := nodup_wideKeys (by decide)
  have hl := length_newest wideMemTable.sorted hn fun u => ?_
  · rw [hl, List.length_cons, wideKeys, List.length_map, List.length_range]
  · rw [wideMemTable, MemTable.users_putAll]
    simp [eq_comm]

/-- The first table of an empty directory. -/
theorem l0Dir_first [Crc32] {mt : MemTable} {file : Bytes} {m : SSTableMeta}
    (h : writeL0 mt = .ok (some (file, m))) :
    DiskStorage.l0Dir ⟨1, 0, []⟩ [] mt =
      (.ok true, DiskStorage.install ⟨2, 0, []⟩ ⟨⟨file, m⟩, newest mt.iter⟩,
        [⟨l0Name 1, file, newest mt.iter⟩]) := by
  unfold DiskStorage.l0Dir
  rw [h]
  rfl

theorem loadDir_unreadable {file : Bytes} {e : DbError} (h : SSTableMeta.read file = .error e)
    (es : List Entry) : DiskStorage.loadDir [⟨l0Name 1, file, es⟩] = .error e := by
  have ht : SsDir.tables [⟨l0Name 1, file, es⟩] = [⟨0, 1, file, es⟩] := rfl
  have hsort : sortFiles [⟨0, 1, file, es⟩] = [⟨0, 1, file, es⟩] := rfl
  simp only [DiskStorage.loadDir, DiskStorage.load, ht, hsort, DiskStorage.loadTables,
    List.foldlM_cons, openTable, h, bind, Except.bind]

/-- **A table that cannot be opened**: a call of `l0` succeeds, and after that the directory cannot be
loaded. -/
theorem reload_wide : DiskStorage.loadDir [] = .ok ⟨1, 0, []⟩ ∧
    ∃ d' dir', @Flushes crc32 ⟨1, 0, []⟩ [] [(wideMemTable, true)] d' dir' ∧ d'.id < 2 ^ 64 ∧
      ∃ e, DiskStorage.loadDir dir' = .error e := by
  have hwide : ∀ e ∈ wideMemTable.entries, e.Fits ∧ e.Wide ∧ e.1.diskSize = 65527 := by
    intro e he
    obtain ⟨n, hk, hv⟩ := mem_wideMemTable he
    exact wide_of_key hk hv
  have hlen := length_newest_wideMemTable
  have hne : wideMemTable.entries ≠ [] := by
    intro hnil
    rw [hnil] at hlen
    cases hlen
  obtain ⟨file, m, hw, e, he⟩ := @writeL0_wide crc32 wideMemTable 65527 (fun e h => (hwide e h).1)
    (fun e h => (hwide e h).2.1) (fun e h => (hwide e h).2.2) hne (by rw [hlen]; decide)
    (by rw [hlen]; decide)
  exact ⟨rfl, _, _, ⟨_, _, @l0Dir_first crc32 _ _ _ hw, rfl, rfl⟩, show 2 < 2 ^ 64 by decide, e,
    loadDir_unreadable he _⟩

end LowDB
