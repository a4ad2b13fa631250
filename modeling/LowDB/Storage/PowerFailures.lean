import LowDB.Lib.FileSystem
import LowDB.Storage.Directory

/-! # Tables and power failures

`DiskStorage::l0` and `SSTableWriter` as operations of the file system: the table is written to a
temporary file, a piece at a time, synced and renamed, and the directory is synced.  A call may fail at
any of these operations, or after all of them when the table is opened; then it tries to remove the
temporary file.  The process may end after any of them, and the power may fail.

The main result is `l0_atomic`: after any of this and any reloads, the directory has the tables it had
and complete tables of memtables that were flushed, one for every call that has returned, under new
numbers; and it can be loaded. -/

namespace LowDB

open FileSystem

/-- The bytes of a file, and what its writer was given, which no code reads. -/
abbrev SsData := Bytes × List Entry

def listing (dir : Folder Name SsData) : SsDir := dir.map fun f => ⟨f.name, f.data.1, f.data.2⟩

def isTable (name : Name) : Bool := (parseName name).isSome

/-- The directory, and the storage of the process that has loaded it. -/
structure TablesDisk where
  fs : Fs Name SsData
  storage : Option DiskStorage
  /-- ghost: what tables were to be written of -/
  tried : List (List Entry)
  /-- ghost: what calls that returned `Ok(true)` have written -/
  acked : List (List Entry)

inductive TablesAct where
  /-- a call of `l0` that writes these pieces and fails after `n` operations, if there are as many; the
  temporary file may be removed then -/
  | l0 (mt : MemTable) (chunks : List Bytes) (n : ℕ) (removed : Bool)
  /-- the process ends -/
  | exit
  | powerFail (k : ℕ) (junk : Name → SsData)
  /-- a process loads the directory and removes some temporary files -/
  | load (removed : Name → Bool)

/-- The operations on one piece. -/
def writes (chunks : List Bytes) : List (SsData → SsData) :=
  chunks.map fun chunk data => (data.1 ++ chunk, data.2)

/-- `let _ = fs::remove_file(…)`. -/
def cleanUp (name : Name) (removed : Bool) (fs : Fs Name SsData) : Fs Name SsData :=
  if removed then fs.apply (.remove name) else fs

/-- The names of the stray files that `load` removes. -/
def strayNames (removed : Name → Bool) (dir : Folder Name SsData) : List Name :=
  (dir.map File.name).filter fun name => !isTable name && isTmp name && removed name

namespace TablesDisk

variable [Crc32]

def l0 (st : TablesDisk) (d : DiskStorage) (mt : MemTable) (chunks : List Bytes) (n : ℕ)
    (removed : Bool) : Option TablesDisk :=
  let d' := { d with id := d.id + 1 }
  let path := l0Name d.id
  let tmp := tmpPath path
  let es := newest mt.iter
  match writeL0 mt with
  | .ok (some (bytes, m)) =>
    let ops := Fs.addOps tmp path ([], es) (writes chunks)
    if chunks.flatten ≠ bytes then none
    else if ops.length < n then
      some ⟨st.fs.applyAll ops, some (d'.install ⟨⟨bytes, m⟩, es⟩), st.tried ++ [es], st.acked ++ [es]⟩
    else
      some ⟨cleanUp tmp removed (st.fs.applyAll (ops.take n)), some d', st.tried ++ [es], st.acked⟩
  | .ok none =>
    some { st with
      fs := cleanUp tmp removed (st.fs.applyAll ((Fs.writeOps tmp ([], es) []).take n))
      storage := some d' }
  | .error _ =>
    some { st with
      fs := cleanUp tmp removed (st.fs.applyAll ((Fs.writeOps tmp ([], es) (writes chunks)).take n))
      storage := some d' }

def load (st : TablesDisk) (removed : Name → Bool) : Option TablesDisk :=
  let fs := st.fs.applyAll ((strayNames removed st.fs.dir).map .remove)
  match DiskStorage.loadDir (listing st.fs.dir) with
  | .ok d => some { st with fs := fs, storage := some d }
  | .error _ => some { st with fs := fs, storage := none }

def step (st : TablesDisk) : TablesAct → Option TablesDisk
  | .l0 mt chunks n removed =>
    match st.storage with
    | none => none
    | some d =>
      -- the counter is not used up
      if d.id < 2 ^ 64 then st.l0 d mt chunks n removed else none
  | .exit => some { st with storage := none }
  | .powerFail k junk => some { st with fs := st.fs.powerFail k junk, storage := none }
  | .load removed => if st.storage.isNone then st.load removed else none

end TablesDisk

/-! ### The tables of a listing -/

section listing
variable {dir dir' : Folder Name SsData}

/-- Only the files with the names of tables count. -/
theorem tables_shown (dir : Folder Name SsData) :
    (listing (Folder.shown isTable dir)).tables = (listing dir).tables := by
  induction dir with
  | nil => rfl
  | cons f dir ih =>
      rw [Folder.shown_cons]
      unfold listing SsDir.tables DirFile.table isTable at ih ⊢
      cases hp : parseName f.name with
      | none => simp [hp, ih]
      | some p => simp [hp, ih]

theorem tables_congr (h : Folder.shown isTable dir = Folder.shown isTable dir') :
    (listing dir).tables = (listing dir').tables := by
  rw [← tables_shown, h, tables_shown]

theorem isTable_l0Name {id : ℕ} (h : id < 2 ^ 64) : isTable (l0Name id) = true := by
  rw [isTable, parseName_l0Name h]
  rfl

theorem isTable_tmpPath (id : ℕ) : isTable (tmpPath (l0Name id)) = false := by
  rw [isTable, parseName_tmpPath]
  rfl

/-- With a file under the name of the table `id`. -/
theorem tables_add {id : ℕ} (hid : id < 2 ^ 64) {data : SsData} {synced : Bool}
    (h : Folder.shown isTable dir' = Folder.shown isTable dir ++ [⟨l0Name id, data, synced⟩]) :
    (listing dir').tables = (listing dir).tables ++ [⟨0, id, data.1, data.2⟩] := by
  have hone : SsDir.tables [⟨l0Name id, data.1, data.2⟩] = [⟨0, id, data.1, data.2⟩] := by
    apply List.filterMap_cons_some
    rw [DirFile.table, parseName_l0Name hid]
    rfl
  rw [← tables_shown, h]
  unfold listing
  rw [List.map_append, SsDir.tables_append, ← listing, tables_shown]
  exact congrArg _ hone

/-- A number that no table has makes a name that no file has. -/
theorem name_ne_l0Name {id : ℕ} (hid : id < 2 ^ 64) (h : ∀ t ∈ (listing dir).tables, t.id < id) :
    ∀ f ∈ Folder.shown isTable dir, f.name ≠ l0Name id := by
  intro f hf he
  have ht : (⟨0, id, f.data.1, f.data.2⟩ : TableFile) ∈ (listing dir).tables := by
    refine List.mem_filterMap.mpr ⟨_, List.mem_map_of_mem (List.mem_filter.mp hf).1, ?_⟩
    rw [DirFile.table, he, parseName_l0Name hid]
    rfl
  exact lt_irrefl _ (h _ ht)

end listing

/-! ### Loading -/

def TableFile.Opens (f : TableFile) : Prop := ∃ t, openTable f = .ok t

theorem foldlM_loadTable_ok {fs : List TableFile} (h : ∀ f ∈ fs, f.Opens) (acc : ℕ × Levels) :
    ∃ r, fs.foldlM loadTable acc = .ok r := by
  induction fs generalizing acc with
  | nil => exact ⟨acc, rfl⟩
  | cons f fs ih =>
      obtain ⟨⟨t, ht⟩, hfs⟩ := List.forall_mem_cons.mp h
      rw [List.foldlM_cons, loadTable, ht]
      exact ih hfs _

theorem opens_of_foldlM {fs : List TableFile} {acc r : ℕ × Levels}
    (h : fs.foldlM loadTable acc = .ok r) : ∀ f ∈ fs, f.Opens := by
  induction fs generalizing acc with
  | nil => exact fun f hf => nomatch hf
  | cons f fs ih =>
      rw [List.foldlM_cons] at h
      obtain ⟨acc', hacc, h⟩ := ok_of_bind h
      obtain ⟨t, ht, -⟩ := ok_of_bind hacc
      exact List.forall_mem_cons.mpr ⟨⟨t, ht⟩, ih h⟩

/-- Files can be loaded exactly if each of them can be opened. -/
theorem load_ok_iff {files : List TableFile} :
    (∃ d, DiskStorage.load files = .ok d) ↔ ∀ f ∈ files, f.Opens := by
  have hperm : (sortFiles files).Perm files := List.perm_insertionSort _ _
  constructor
  · rintro ⟨d, h⟩ f hf
    obtain ⟨r, hr, -⟩ := ok_of_bind h
    exact opens_of_foldlM hr f (hperm.symm.subset hf)
  · intro h
    obtain ⟨r, hr⟩ := foldlM_loadTable_ok (fun f hf => h f (hperm.subset hf)) (0, [])
    have hload : DiskStorage.loadTables (sortFiles files) = .ok r := hr
    refine ⟨⟨(files.map TableFile.id).foldr max 0 + 1, r.1, r.2⟩, ?_⟩
    rw [DiskStorage.load, hload]
    rfl

theorem loadDir_ok_iff {dir : SsDir} :
    (∃ d, DiskStorage.loadDir dir = .ok d) ↔ ∀ f ∈ dir.tables, f.Opens := load_ok_iff

/-- The next number is above those of the tables. -/
theorem id_lt_of_loadDir {dir : SsDir} {d : DiskStorage} (h : DiskStorage.loadDir dir = .ok d) :
    ∀ f ∈ dir.tables, f.id < d.id := by
  obtain ⟨r, -, hd⟩ := ok_of_bind h
  cases hd
  exact fun f hf => id_lt_succ_max hf

/-! ### Operations -/

/-- The pieces together are the file. -/
theorem foldl_writes (chunks : List Bytes) (data : SsData) :
    (writes chunks).foldl (fun d f => f d) data = (data.1 ++ chunks.flatten, data.2) := by
  induction chunks generalizing data with
  | nil => simp [writes]
  | cons chunk chunks ih =>
      have hcons : writes (chunk :: chunks) =
          (fun data : SsData => (data.1 ++ chunk, data.2)) :: writes chunks := rfl
      rw [hcons, List.foldl_cons, ih, List.flatten_cons, List.append_assoc]


/-- Nothing of the tables has changed. -/
def SameTables (fs fs' : Fs Name SsData) : Prop :=
  Folder.shown isTable fs'.dir = Folder.shown isTable fs.dir ∧
    ∀ d ∈ fs'.moments, ∃ d' ∈ fs.moments, Folder.shown isTable d = Folder.shown isTable d'

theorem SameTables.trans {fs fs' fs'' : Fs Name SsData} (h : SameTables fs fs')
    (h' : SameTables fs' fs'') : SameTables fs fs'' := by
  refine ⟨h'.1.trans h.1, fun d hd => ?_⟩
  obtain ⟨d', hd', he'⟩ := h'.2 d hd
  obtain ⟨d'', hd'', he''⟩ := h.2 d' hd'
  exact ⟨d'', hd'', he'.trans he''⟩

theorem sameTables_cleanUp (id : ℕ) (removed : Bool) (fs : Fs Name SsData) :
    SameTables fs (cleanUp (tmpPath (l0Name id)) removed fs) := by
  unfold cleanUp
  split_ifs
  · have hnames : ∀ op ∈ [Op.remove (tmpPath (l0Name id))], ∀ name ∈ (op : Op Name SsData).names,
        isTable name = false := by
      intro op hop name hname
      rw [List.mem_singleton.mp hop] at hname
      exact List.mem_singleton.mp hname ▸ isTable_tmpPath id
    exact Fs.shown_applyAll hnames
  · exact ⟨rfl, fun d hd => ⟨d, hd, rfl⟩⟩

theorem sameTables_writeOps (id n : ℕ) (d₀ : SsData) (ws : List (SsData → SsData))
    (fs : Fs Name SsData) :
    SameTables fs (fs.applyAll ((Fs.writeOps (tmpPath (l0Name id)) d₀ ws).take n)) := by
  refine Fs.shown_applyAll fun op hop name hname => ?_
  rw [Fs.names_writeOps (List.mem_of_mem_take hop)] at hname
  exact List.mem_singleton.mp hname ▸ isTable_tmpPath id

theorem sameTables_sweep (removed : Name → Bool) (fs : Fs Name SsData) :
    SameTables fs (fs.applyAll ((strayNames removed fs.dir).map .remove)) := by
  refine Fs.shown_applyAll fun op hop name hname => ?_
  obtain ⟨stray, hs, rfl⟩ := List.mem_map.mp hop
  rw [List.mem_singleton.mp hname]
  have := (List.mem_filter.mp hs).2
  simp at this
  exact this.1.1

/-! ### What every moment has -/

section code
variable [Crc32]

/-- The tables at a moment, when they were `base` at first. -/
structure Moment (base : List TableFile) (acked tried : List (List Entry)) (dir : Folder Name SsData) :
    Prop where
  synced : ∀ f ∈ Folder.shown isTable dir, f.synced = true
  tables : ∃ new, (listing dir).tables = base ++ new ∧ acked.Sublist (new.map TableFile.entries) ∧
    (new.map TableFile.entries).Sublist tried ∧ (∀ f ∈ new, f.Written ∧ f.Opens) ∧
    new.Pairwise (fun f g => f.id < g.id) ∧ ∀ f ∈ base, ∀ g ∈ new, f.id < g.id

namespace Moment

variable {base : List TableFile} {acked tried tried' : List (List Entry)} {dir dir' : Folder Name SsData}

theorem congr (h : Moment base acked tried dir)
    (hshown : Folder.shown isTable dir' = Folder.shown isTable dir) : Moment base acked tried dir' where
  synced := hshown ▸ h.synced
  tables := tables_congr hshown ▸ h.tables

theorem mono (h : Moment base acked tried dir) (es : List Entry) :
    Moment base acked (tried ++ [es]) dir := by
  obtain ⟨new, ht, ha, htried, hnew⟩ := h.tables
  exact ⟨h.synced, new, ht, ha, htried.trans (List.sublist_append_left _ _), hnew⟩

/-- With a complete table under a new number. -/
theorem add (h : Moment base acked tried dir) {t : TableFile} (hlevel : t.level = 0)
    (hid : t.id < 2 ^ 64) (hfresh : ∀ f ∈ (listing dir).tables, f.id < t.id) (hw : t.Written)
    (ho : t.Opens)
    (hshown : Folder.shown isTable dir' =
      Folder.shown isTable dir ++ [⟨l0Name t.id, (t.bytes, t.entries), true⟩]) :
    Moment base acked (tried ++ [t.entries]) dir' ∧
      Moment base (acked ++ [t.entries]) (tried ++ [t.entries]) dir' := by
  obtain ⟨new, ht, ha, htried, hnew, hsort, hbase⟩ := h.tables
  have hsynced : ∀ f ∈ Folder.shown isTable dir', f.synced = true := by
    intro f hf
    rw [hshown] at hf
    rcases List.mem_append.mp hf with hf | hf
    · exact h.synced f hf
    · rw [List.mem_singleton.mp hf]
  have heq : (⟨0, t.id, t.bytes, t.entries⟩ : TableFile) = t := by
    rw [← hlevel]
  have htables : (listing dir').tables = base ++ (new ++ [t]) := by
    rw [tables_add hid hshown, ht, List.append_assoc, heq]
  have hentries : (new ++ [t]).map TableFile.entries = new.map TableFile.entries ++ [t.entries] := by
    rw [List.map_append]
    rfl
  have hlt : ∀ f ∈ base ++ new, f.id < t.id := ht ▸ hfresh
  have hnew' : ∀ f ∈ new ++ [t], f.Written ∧ f.Opens := by
    intro f hf
    rcases List.mem_append.mp hf with hf | hf
    · exact hnew f hf
    · exact List.mem_singleton.mp hf ▸ ⟨hw, ho⟩
  have hsort' : (new ++ [t]).Pairwise fun f g => f.id < g.id := by
    refine List.pairwise_append.mpr ⟨hsort, List.pairwise_singleton _ _, ?_⟩
    intro f hf g hg
    exact List.mem_singleton.mp hg ▸ hlt f (List.mem_append_right _ hf)
  have hbase' : ∀ f ∈ base, ∀ g ∈ new ++ [t], f.id < g.id := by
    intro f hf g hg
    rcases List.mem_append.mp hg with hg | hg
    · exact hbase f hf g hg
    · exact List.mem_singleton.mp hg ▸ hlt f (List.mem_append_left _ hf)
  have htried' := htried.append (List.Sublist.refl [t.entries])
  refine ⟨⟨hsynced, _, htables, ?_, hentries ▸ htried', hnew', hsort', hbase'⟩,
    ⟨hsynced, _, htables, ?_, hentries ▸ htried', hnew', hsort', hbase'⟩⟩
  · exact hentries ▸ ha.trans (List.sublist_append_left _ _)
  · exact hentries ▸ ha.append (List.Sublist.refl [t.entries])

end Moment

/-! ### Runs -/

/-- What holds throughout a run. -/
structure TablesDisk.Inv (base : List TableFile) (st : TablesDisk) : Prop where
  moments : ∀ d ∈ st.fs.moments, Moment base st.acked st.tried d
  fresh : ∀ s ∈ st.storage, ∀ f ∈ (listing st.fs.dir).tables, f.id < s.id

namespace TablesDisk

variable {base : List TableFile} {st st' : TablesDisk}

theorem Inv.same (h : st.Inv base) {fs : Fs Name SsData} (hs : SameTables st.fs fs)
    {storage : Option DiskStorage}
    (hid : ∀ s ∈ storage, ∀ f ∈ (listing st.fs.dir).tables, f.id < s.id) :
    Inv base ⟨fs, storage, st.tried, st.acked⟩ where
  moments d hd := by
    obtain ⟨d', hd', he⟩ := hs.2 d hd
    exact (h.moments d' hd').congr he
  fresh s hs' := tables_congr hs.1 ▸ hid s hs'

/-- The operations of a call, as far as they are carried out. -/
theorem Inv.addOps {t : TableFile} {chunks : List Bytes} {n : ℕ} {fs' : Fs Name SsData}
    (h : st.Inv base) (hlevel : t.level = 0) (hid : t.id < 2 ^ 64)
    (hfresh : ∀ f ∈ (listing st.fs.dir).tables, f.id < t.id) (hw : t.Written) (ho : t.Opens)
    (hchunks : chunks.flatten = t.bytes)
    (hfs : st.fs.applyAll ((Fs.addOps (tmpPath (l0Name t.id)) (l0Name t.id) ([], t.entries)
      (writes chunks)).take n) = fs') :
    (∀ d ∈ fs'.moments, Moment base st.acked (st.tried ++ [t.entries]) d) ∧
      (∀ f ∈ (listing fs'.dir).tables, f.id < t.id + 1) ∧
      (chunks.length + 4 ≤ n →
        ∀ d ∈ fs'.moments, Moment base (st.acked ++ [t.entries]) (st.tried ++ [t.entries]) d) := by
  have hdata : (writes chunks).foldl (fun d f => f d) ([], t.entries) = (t.bytes, t.entries) := by
    rw [foldl_writes, hchunks]
    rfl
  have hlen : (writes chunks).length = chunks.length := List.length_map _
  obtain ⟨hmoments, hdir, hlast⟩ := Fs.add_take (isTable_l0Name hid) (isTable_tmpPath t.id)
    (name_ne_l0Name hid hfresh) hfs rfl
  rw [hdata] at hmoments hdir hlast
  rw [hlen] at hdir hlast
  have hnow : Moment base st.acked st.tried st.fs.dir := h.moments _ List.mem_cons_self
  refine ⟨?_, ?_, ?_⟩
  · intro d hd
    rcases hmoments d hd with he | ⟨d', hd', he⟩
    · exact (hnow.add hlevel hid hfresh hw ho he).1
    · exact ((h.moments d' hd').congr he).mono _
  · split_ifs at hdir with hn
    · rw [tables_congr hdir]
      exact fun f hf => Nat.lt_succ_of_lt (hfresh f hf)
    · rw [tables_add hid hdir]
      intro f hf
      rcases List.mem_append.mp hf with hf | hf
      · exact Nat.lt_succ_of_lt (hfresh f hf)
      · rw [List.mem_singleton.mp hf]
        exact Nat.lt_succ_self _
  · exact fun hn d hd => (hnow.add hlevel hid hfresh hw ho (hlast hn d hd)).2

/-- One call of `l0`, however it ends. -/
theorem Inv.l0 {d : DiskStorage} {mt : MemTable} {chunks : List Bytes} {n : ℕ} {removed : Bool}
    (h : st.Inv base) (hs : st.storage = some d) (hid : d.id < 2 ^ 64)
    (hidx : indexSize blockHeader (newest mt.entries) < 2 ^ 32)
    (hl : st.l0 d mt chunks n removed = some st') : st'.Inv base := by
  have hfresh : ∀ f ∈ (listing st.fs.dir).tables, f.id < d.id := h.fresh d hs
  have hbump : ∀ s ∈ some { d with id := d.id + 1 }, ∀ f ∈ (listing st.fs.dir).tables, f.id < s.id := by
    intro s hs f hf
    cases hs
    exact Nat.lt_succ_of_lt (hfresh f hf)
  unfold TablesDisk.l0 at hl
  cases hw : writeL0 mt with
  | error e =>
      simp only [hw, Option.some.injEq] at hl
      subst hl
      exact h.same ((sameTables_writeOps ..).trans (sameTables_cleanUp ..)) hbump
  | ok r =>
      cases r with
      | none =>
          simp only [hw, Option.some.injEq] at hl
          subst hl
          exact h.same ((sameTables_writeOps ..).trans (sameTables_cleanUp ..)) hbump
      | some r =>
          obtain ⟨bytes, m⟩ := r
          simp only [hw] at hl
          have hwrite : writeTable (newest mt.entries) = .ok (some (bytes, m)) := hw
          have hwt : TableFile.Written ⟨0, d.id, bytes, newest mt.iter⟩ := ⟨m, hwrite⟩
          have hot : TableFile.Opens ⟨0, d.id, bytes, newest mt.iter⟩ :=
            ⟨_, openTable_written hwrite hidx 0 d.id⟩
          split_ifs at hl with hchunks hn
          all_goals
            rw [not_ne_iff] at hchunks
            cases hl
          · -- the call succeeds
            have hlen : (Fs.addOps (tmpPath (l0Name d.id)) (l0Name d.id) ([], newest mt.iter)
                (writes chunks) : List (Op Name SsData)).length = chunks.length + 4 := by
              simp [Fs.addOps, Fs.writeOps, writes]
            obtain ⟨-, hlt, hlast⟩ := h.addOps (n := chunks.length + 4) rfl hid hfresh hwt hot hchunks rfl
            rw [← hlen, List.take_length] at hlt hlast
            exact ⟨hlast le_rfl, fun s hs => by cases hs; exact hlt⟩
          · -- it fails after `n` operations
            obtain ⟨hmoments, hlt, -⟩ := h.addOps (n := n) rfl hid hfresh hwt hot hchunks rfl
            have hinv : Inv base ⟨st.fs.applyAll ((Fs.addOps (tmpPath (l0Name d.id)) (l0Name d.id)
                ([], newest mt.iter) (writes chunks)).take n), some { d with id := d.id + 1 },
                st.tried ++ [newest mt.iter], st.acked⟩ :=
              ⟨hmoments, fun s hs => by cases hs; exact hlt⟩
            exact hinv.same (sameTables_cleanUp ..) hinv.fresh

theorem Inv.powerFail (h : st.Inv base) (k : ℕ) (junk : Name → SsData) :
    Inv base { st with fs := st.fs.powerFail k junk, storage := none } where
  moments d hd := by
    obtain ⟨d', hd', he⟩ := st.fs.dir_powerFail k junk
    rw [he] at hd
    have hm := h.moments d' hd'
    rw [List.mem_singleton.mp hd]
    exact hm.congr ((Folder.shown_spoil junk d').trans (Folder.spoil_eq hm.synced))
  fresh _ hs := nomatch hs

theorem Inv.load {removed : Name → Bool} (h : st.Inv base) (hl : st.load removed = some st') :
    st'.Inv base := by
  unfold TablesDisk.load at hl
  cases hd : DiskStorage.loadDir (listing st.fs.dir) with
  | error e =>
      simp only [hd, Option.some.injEq] at hl
      subst hl
      exact h.same (sameTables_sweep ..) fun _ hs => nomatch hs
  | ok d =>
      simp only [hd, Option.some.injEq] at hl
      subst hl
      apply h.same (sameTables_sweep ..)
      intro s hs
      cases hs
      exact id_lt_of_loadDir hd

end TablesDisk

/-- The index of the table can be read back. -/
def TablesAct.IndexFits : TablesAct → Prop
  | .l0 mt _ _ _ => indexSize blockHeader (newest mt.entries) < 2 ^ 32
  | _ => True

theorem TablesDisk.Inv.step {base : List TableFile} {st st' : TablesDisk} {a : TablesAct}
    (h : st.Inv base) (ha : a.IndexFits) (hs : st.step a = some st') : st'.Inv base := by
  cases a with
  | l0 mt chunks n removed =>
      unfold TablesDisk.step at hs
      cases hd : st.storage with
      | none => simp [hd] at hs
      | some d =>
          simp only [hd] at hs
          split_ifs at hs with hid
          exact h.l0 hd hid ha hs
  | exit =>
      cases hs
      exact ⟨h.moments, fun _ hs => nomatch hs⟩
  | powerFail k junk =>
      cases hs
      exact h.powerFail k junk
  | load removed =>
      unfold TablesDisk.step at hs
      split_ifs at hs
      exact h.load hs

theorem TablesDisk.Inv.run {base : List TableFile} {st st' : TablesDisk} {acts : List TablesAct}
    (h : st.Inv base) (ha : ∀ a ∈ acts, a.IndexFits)
    (hs : acts.foldlM TablesDisk.step st = some st') : st'.Inv base := by
  induction acts generalizing st with
  | nil =>
      cases hs
      exact h
  | cons a acts ih =>
      obtain ⟨ha₀, ha⟩ := List.forall_mem_cons.mp ha
      rw [List.foldlM_cons] at hs
      obtain ⟨st₁, hst₁, hs⟩ := Option.bind_eq_some_iff.mp hs
      exact ih (h.step ha₀ hst₁) ha hs

/-- **Flushing is atomic**: a directory that can be loaded and whose tables are synced has been through
calls of `l0` that returned, failed at any operation or were cut off, through exits and power failures,
and through reloads, with indexes that can be read back.  Then at every moment to which a power failure
may take it, it has the tables it had at first, unchanged, and after them others with greater numbers,
each of them a complete table; they hold, in this order, what every call that returned has written, and
nothing but what calls have tried to write.  The directory can be loaded, and the next number is free. -/
theorem l0_atomic {dir : Folder Name SsData} {d₀ : DiskStorage} {acts : List TablesAct} {st : TablesDisk}
    (hsynced : ∀ f ∈ Folder.shown isTable dir, f.synced = true)
    (hload : DiskStorage.loadDir (listing dir) = .ok d₀) (hidx : ∀ a ∈ acts, a.IndexFits)
    (hrun : acts.foldlM TablesDisk.step ⟨⟨dir, []⟩, none, [], []⟩ = some st) :
    ∀ d ∈ st.fs.moments, ∃ new, (listing d).tables = (listing dir).tables ++ new ∧
      st.acked.Sublist (new.map TableFile.entries) ∧
      (new.map TableFile.entries).Sublist st.tried ∧
      (∀ f ∈ new, f.Written) ∧ new.Pairwise (fun f g => f.id < g.id) ∧
      (∀ f ∈ (listing dir).tables, ∀ g ∈ new, f.id < g.id) ∧
      ∃ r, DiskStorage.loadDir (listing d) = .ok r ∧ ∀ f ∈ (listing d).tables, f.id < r.id := by
  have hinit : TablesDisk.Inv (listing dir).tables ⟨⟨dir, []⟩, none, [], []⟩ := by
    refine ⟨fun d hd => ?_, fun _ hs => nomatch hs⟩
    rw [List.mem_singleton.mp hd]
    exact ⟨hsynced, [], (List.append_nil _).symm, List.Sublist.refl _, List.Sublist.refl _,
      (fun _ h => nomatch h), List.Pairwise.nil, fun _ _ _ h => nomatch h⟩
  have hbase := loadDir_ok_iff.mp ⟨d₀, hload⟩
  intro d hd
  obtain ⟨new, ht, ha, htried, hnew, hsort, hids⟩ := ((hinit.run hidx hrun).moments d hd).tables
  have hopens : ∀ f ∈ (listing d).tables, f.Opens := by
    intro f hf
    rw [ht] at hf
    rcases List.mem_append.mp hf with hf | hf
    · exact hbase f hf
    · exact (hnew f hf).2
  obtain ⟨r, hr⟩ := loadDir_ok_iff.mpr hopens
  exact ⟨new, ht, ha, htried, fun f hf => (hnew f hf).1, hsort, hids, r, hr, id_lt_of_loadDir hr⟩

end code

/-- A memtable that is flushed twice, since the directory could not be synced after the second renaming;
then the power fails, and brings the directory back to where it was before. -/
def twoFlushes : List TablesAct :=
  let mt := (MemTable.new 1).putAll twoVersions
  let file := (((@writeL0 crc32 mt).toOption.join).map Prod.fst).getD []
  [.load fun _ => false, .l0 mt [file] 6 false, .l0 mt [file.take 9, file.drop 9] 5 false,
    .powerFail 1 fun _ => ([0], []), .load fun _ => true]

theorem l0_atomic_twoFlushes :
    ∃ st, twoFlushes.foldlM (@TablesDisk.step crc32) ⟨⟨[], []⟩, none, [], []⟩ = some st ∧
      st.acked.length = 1 ∧ st.tried.length = 2 ∧
      ∀ d ∈ st.fs.moments, ∃ new, (listing d).tables = new ∧
        st.acked.Sublist (new.map TableFile.entries) := by
  have h : (twoFlushes.foldlM (@TablesDisk.step crc32) ⟨⟨[], []⟩, none, [], []⟩).map
      (fun st => (st.acked.length, st.tried.length)) = some (1, 2) := by decide +kernel
  obtain ⟨st, hst, hlen⟩ := Option.map_eq_some_iff.mp h
  have hidx : ∀ a ∈ twoFlushes, a.IndexFits := by
    unfold twoFlushes
    simp only [List.forall_mem_cons, TablesAct.IndexFits, true_and]
    refine ⟨by decide, by decide, fun _ h => absurd h List.not_mem_nil⟩
  refine ⟨st, hst, congrArg Prod.fst hlen, congrArg Prod.snd hlen, fun d hd => ?_⟩
  obtain ⟨new, ht, ha, -⟩ := @l0_atomic crc32 [] ⟨1, 0, []⟩ _ st
    (fun _ h => absurd h List.not_mem_nil) rfl hidx hst d hd
  exact ⟨new, ht, ha⟩

end LowDB
