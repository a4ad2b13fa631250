import LowDB.Engine.Recovery

/-! # Opening

`DB::open` on files that hold `Files` sets up a process for which all invariants hold: its frozen
memtables are those of the logs, its tables those of the files, and its counters are above every
version on disk.  `Process.Consistent` joins the invariants; it holds in every run that opens such
files, loses no commit record to a failed append, and removes logs where `RemoveOk` holds. -/

namespace LowDB

open Layered

namespace Process

section memtables
variable {ls : List Log}

theorem heapOf_new {id : ℕ} (h : ∀ l ∈ ls, l.id ≠ id) :
    heapOf (ls.map Log.memTable) id = .new id := by
  unfold heapOf
  have hnone : (ls.map Log.memTable).find? (fun t => t.id = id) = none := by
    refine List.find?_eq_none.mpr fun t ht => ?_
    obtain ⟨l, hl, rfl⟩ := List.mem_map.mp ht
    simpa [Log.memTable] using h l hl
  rw [hnone]
  rfl

theorem heapOf_mem {l : Log} (hn : (ls.map Log.id).Nodup) (hl : l ∈ ls) :
    heapOf (ls.map Log.memTable) l.id = l.memTable := by
  unfold heapOf
  have hfind : (ls.map Log.memTable).find? (fun t => t.id = l.id) = some l.memTable := by
    induction ls with
    | nil => cases hl
    | cons x xs ih =>
        obtain ⟨hx, hxs⟩ := List.nodup_cons.mp hn
        rw [List.map_cons]
        cases List.mem_cons.mp hl with
        | inl he =>
            rw [← he, List.find?_cons_of_pos (by simp [Log.memTable])]
        | inr hmem =>
            have hne : x.id ≠ l.id := fun he => hx (he ▸ List.mem_map_of_mem hmem)
            rw [List.find?_cons_of_neg (by simpa [Log.memTable] using hne), ih hxs hmem]
  rw [hfind]
  rfl

end memtables

variable {d : Dir} {p : Process}

/-- The process that `DB::open` sets up, by the logs and the tables. -/
structure Opened [Crc32] (d : Dir) (p : Process) : Prop where
  mems : p.mems = heapOf (d.wal.reverse.map Log.memTable)
  frozen : p.state.frozen = d.wal.reverse.map Log.id
  new : ∀ l ∈ d.wal, l.id < p.state.memTable
  buf : p.walBuf = []
  nextWal : p.nextWal = p.state.memTable + 1
  tables : p.storage.tables.map Table.entries = d.ss.reverse.map TableFile.entries
  tableId : ∀ f ∈ d.ss, f.id < p.storage.id
  logged : ∀ l ∈ d.wal, ∀ e ∈ l.recorded, e.1.seq.toNat ≤ p.oracle.visible
  stored : ∀ f ∈ d.ss, ∀ e ∈ f.entries, e.1.seq.toNat ≤ p.oracle.visible
  oracle : ∃ maxSeq txId, p.oracle = .new maxSeq txId
  commit : p.commit = .free
  flush : p.flush = .free
  readers : p.readers = []
  published : p.published = []
  failed : p.failed = []
  written : p.written = []

theorem opened [Crc32] (hF : Files d) (h : openDb (d.wal.map Log.file) d.ss = .ok p) :
    Opened d p := by
  obtain ⟨restored, storage, hr, hl, rfl⟩ := openDb_eq h
  obtain ⟨m, hm⟩ := restore_eq hF.sorted hF.intact
  cases hm.symm.trans hr
  obtain ⟨ht, hseq, hid⟩ := load_eq hF.level hF.stored hF.ids hl
  have hle : ∀ x, x ≤ max storage.maxSeq (maxSeqOf 0 (d.wal.reverse.flatMap Log.recorded)) →
      x ≤ max storage.maxSeq (maxSeqOf 0 (d.wal.reverse.flatMap Log.recorded)) + 1 :=
    fun x hx => hx.trans (Nat.le_succ _)
  exact {
    mems := rfl
    frozen := by
      show (d.wal.reverse.map Log.memTable).map MemTable.id = _
      rw [List.map_map]
      exact List.map_congr_left fun l _ => MemTable.putAll_id _ _
    new := fun l hl => by
      have hmem : l.file ∈ d.wal.map Log.file := List.mem_map_of_mem hl
      exact Nat.lt_succ_of_le (le_latestId hmem)
    buf := rfl
    nextWal := rfl
    tables := ht
    tableId := hid
    logged := fun l hl e he => by
      refine hle _ ((seq_le_maxSeqOf ?_).trans (le_max_right _ _))
      exact List.mem_flatMap.mpr ⟨l, List.mem_reverse.mpr hl, he⟩
    stored := fun f hf e he => hle _ ((hseq f hf e he).trans (le_max_left _ _))
    oracle := ⟨_, _, rfl⟩
    commit := rfl
    flush := rfl
    readers := rfl
    published := rfl
    failed := rfl
    written := rfl }

namespace Opened

variable [Crc32]

/-- The new active memtable is empty. -/
theorem mems_active (h : Opened d p) : p.mems p.state.memTable = .new p.state.memTable := by
  rw [h.mems]
  exact heapOf_new fun l hl => (h.new l (List.mem_reverse.mp hl)).ne

/-- A frozen memtable is the one replayed from its log. -/
theorem mems_frozen (h : Opened d p) (hF : Files d) {l : Log} (hl : l ∈ d.wal) :
    p.mems l.id = l.memTable := by
  rw [h.mems]
  refine heapOf_mem ?_ (List.mem_reverse.mpr hl)
  rw [List.map_reverse, List.nodup_reverse]
  exact hF.sorted.imp fun h => h.ne

theorem layers_tables (h : Opened d p) :
    p.storage.tables.map (fun t => layer t.entries) = d.ss.reverse.map TableFile.layer := by
  have ht := congrArg (List.map layer) h.tables
  rwa [List.map_map, List.map_map] at ht

/-- The components of the current state are those recovered, behind an empty one. -/
theorem layers_current (h : Opened d p) (hF : Files d) :
    p.state.ids.map (fun id => layer (p.mems id).entries) ++
      p.storage.tables.map (fun t => layer t.entries) = ∅ :: d.recovered := by
  rw [h.layers_tables, State.ids, h.frozen, List.map_cons, h.mems_active, MemTable.new_entries,
    layer_nil, List.map_map]
  refine congrArg (fun ls => ∅ :: (ls ++ _)) (List.map_congr_left fun l hl => ?_)
  exact congrArg (fun t => layer t.entries) (h.mems_frozen hF (List.mem_reverse.mp hl))

theorem conflicts (h : Opened d p) : p.Conflicts := by
  obtain ⟨maxSeq, txId, ho⟩ := h.oracle
  unfold Conflicts
  rw [ho, h.commit, h.readers, h.published]
  exact .new _ _

theorem flush' (h : Opened d p) : p.Flush := by
  unfold Flush
  rw [h.flush]
  trivial

theorem ids (h : Opened d p) (hF : Files d) : p.Ids (d.addLog p.state.memTable) [] := by
  have hwal : (d.addLog p.state.memTable).wal.map Log.id =
      d.wal.map Log.id ++ [p.state.memTable] := by
    unfold Dir.addLog
    rw [List.map_append]
    rfl
  have hlt : ∀ id ∈ d.wal.map Log.id, id < p.state.memTable := by
    intro id hid
    obtain ⟨l, hl, rfl⟩ := List.mem_map.mp hid
    exact h.new l hl
  have hstate : p.state.ids = p.state.memTable :: (d.wal.map Log.id).reverse := by
    rw [State.ids, h.frozen, List.map_reverse]
  unfold Ids
  rw [hwal, h.commit, h.flush, hstate, h.nextWal]
  refine .open hF.sorted hlt ?_
  intro id hid
  rw [h.mems, heapOf_new fun l hl => ((h.new l (List.mem_reverse.mp hl)).trans hid).ne]
  rfl

theorem files (h : Opened d p) (hF : Files d) : Files (d.addLog p.state.memTable) :=
  Files.addLog hF h.new

theorem attached (h : Opened d p) (hF : Files d) : p.Attached (d.addLog p.state.memTable) := by
  unfold Attached
  rw [h.commit, h.flush]
  exact {
    buf := h.buf
    active := fun l hl hid => by
      cases List.mem_append.mp hl with
      | inl hl => exact absurd hid (h.new l hl).ne
      | inr hl =>
          rw [hid, h.mems_active, List.mem_singleton.mp hl]
          exact ⟨Attached.matches_new rfl, rfl⟩
    frozen := fun l hl hid => by
      have hid : l.id ∈ p.state.frozen := (List.append_nil p.state.frozen) ▸ hid
      cases List.mem_append.mp hl with
      | inl hl =>
          rw [h.mems_frozen hF hl]
          exact map_stored_log l
      | inr hl =>
          rw [h.frozen, List.mem_singleton.mp hl] at hid
          obtain ⟨x, hx, he⟩ := List.mem_map.mp hid
          exact absurd he (h.new x (List.mem_reverse.mp hx)).ne
    fresh := fun _ _ hm => absurd hm List.not_mem_nil
    tables := h.tables.symm
    tableId := h.tableId }

/-- No version in a file is newer than the visible timestamp. -/
theorem recovered_le (h : Opened d p) {L : Layer Str (Option Str)} (hL : L ∈ d.recovered) {k : Str}
    {n : ℕ} (hn : Holds L k n) : n ≤ p.oracle.visible := by
  cases List.mem_append.mp hL with
  | inl hL =>
      obtain ⟨l, hl, rfl⟩ := List.mem_map.mp hL
      obtain ⟨e, he, _, rfl⟩ := holds_layer_iff.mp hn
      have he := List.mem_of_find?_eq_some (mem_new_putAll.mp he)
      obtain ⟨s, hs, he⟩ := List.mem_flatMap.mp he
      obtain ⟨x, hx, rfl⟩ := List.mem_map.mp he
      apply h.logged l (List.mem_reverse.mp hl) x
      exact List.mem_append_left _ (List.mem_flatMap.mpr ⟨s, hs, hx⟩)
  | inr hL =>
      obtain ⟨f, hf, rfl⟩ := List.mem_map.mp hL
      obtain ⟨e, he, _, rfl⟩ := holds_layer_iff.mp hn
      exact h.stored f (List.mem_reverse.mp hf) e he

/-- Neither is a committed version. -/
theorem hist_le (h : Opened d p) (hF : Files d) {k : Str} {n : ℕ} (hn : Holds d.histLayer k n) :
    n ≤ p.oracle.visible := by
  refine hF.reads.le ?_ (fun L hL n hn => h.recovered_le hL hn) hn
  refine ⟨(d.hist.map fun x => x.2.1).foldr max 0, ?_⟩
  rintro n ⟨v, hv⟩
  exact List.le_max_of_le' 0 (List.mem_map_of_mem hv) le_rfl

theorem phase (h : Opened d p) (hF : Files d) : p.Phase (d.addLog p.state.memTable) := by
  unfold Phase
  rw [h.mems_active, h.commit]
  exact {
    active := fun k n v _ => Iff.rfl
    hist := fun k n v hlt => by
      have hno : (k, n, v) ∉ d.hist := fun hv => hlt.not_ge (h.hist_le hF ⟨v, hv⟩)
      simp [CommitLock.sealedEntries, Dir.addLog, hno]
    ts := fun _ h => nomatch h }

end Opened

/-! ### The invariants together -/

/-- The invariants of a process and its files; `rest` are the logs left over. -/
structure Consistent [Crc32] (d : Dir) (p : Process) (rest : List ℕ) : Prop where
  conflicts : p.Conflicts
  ids : p.Ids d rest
  phase : p.Phase d
  flush : p.Flush
  files : d.refused = false → Files d ∧ p.Attached d

section
variable [Crc32]

theorem Opened.consistent (h : Opened d p) (hF : Files d) :
    p.Consistent (d.addLog p.state.memTable) [] :=
  ⟨h.conflicts, h.ids hF, h.phase hF, h.flush', fun _ => ⟨h.files hF, h.attached hF⟩⟩

variable {d' : Dir} {p' : Process} {a : Act} {o : Out} {rest : List ℕ}

theorem refused_of_step (hs : Step d p a o d' p') (h : d'.refused = false) :
    d.refused = false := by
  cases hs with
  | refuse => cases h
  | appendFails => cases h
  | _ => exact h

theorem Consistent.step (h : p.Consistent d rest)
    (hcommit : ∀ w b, a = .appendFails w b → p.commit.isLogged = false)
    (hremove : d.refused = false → ∀ mt, a = .removeLog → p.flush = .retired mt → RemoveOk d mt)
    (hs : Step d p a o d' p') : p'.Consistent d' (p.restAfter rest a) where
  conflicts := conflicts_step h.conflicts hs
  ids := ids_step h.ids h.flush hs
  phase := phase_step h.phase h.conflicts hcommit hs
  flush := flush_step h.flush h.ids hs
  files hd' := by
    have hd := refused_of_step hs hd'
    obtain ⟨hF, hA⟩ := h.files hd
    exact ⟨files_step hF hA h.ids h.phase h.conflicts h.flush (hremove hd) hs hd',
      attached_step hA h.ids h.flush hs hd'⟩

end

end Process

theorem Sys.init_files [Crc32] : Files Sys.init.dir where
  sorted := List.Pairwise.nil
  intact := fun _ h => nomatch h
  level := fun _ h => nomatch h
  ids := List.Pairwise.nil
  stored := fun _ h => nomatch h
  sub := fun _ h => nomatch h
  reads := by
    have hnil : Sys.init.dir.histLayer = ∅ :=
      Set.eq_empty_iff_forall_notMem.mpr fun _ => List.not_mem_nil
    rw [hnil]
    exact ReadsLast.nil

/-- The runs in which files are opened only after no append has failed or been refused, and no commit
record is lost to a failed append. -/
structure Tidy (P : Sys → Act → Prop) : Prop where
  opens : ∀ d, P ⟨d, none⟩ .open → d.refused = false
  commits : ∀ d p w b, P ⟨d, some p⟩ (.appendFails w b) → p.commit.isLogged = false

section runs
variable [Crc32] {P : Sys → Act → Prop} {s : Sys}

/-- The invariants hold where every log is removed. -/
theorem Run.consistent (hP : Tidy P) (hremove : ∀ d p, ¬ P ⟨d, some p⟩ .removeLogFails)
    (h : Reach P s) :
    s.Holds (fun d => d.refused = false → Files d) fun d p => p.Consistent d [] := by
  refine h.holds (fun d p _ ha hF ho => ?_) (fun d p hc hd => (hc.files hd).1)
    (fun d p a o d' p' _ ha hc hs => ?_) fun _ => Sys.init_files
  · have hF := hF (hP.opens d ha)
    exact (Process.opened hF ho).consistent hF
  · have hrest : p.restAfter [] a = [] := by
      unfold Process.restAfter
      split
      · exact absurd ha (hremove _ _)
      · rfl
    rw [← hrest]
    refine hc.step (fun w b he => hP.commits d p w b (he ▸ ha)) ?_ hs
    exact fun _ mt _ hf => Process.removeOk_of_rest hc.ids hf

/-- They hold where logs may be left over, if they do not get in the way of the removal of others. -/
theorem Run.consistent_of_removeOk (hP : Tidy P)
    (hremove : ∀ d p mt, P ⟨d, some p⟩ .removeLog → p.flush = .retired mt → RemoveOk d mt)
    (h : Reach P s) :
    s.Holds (fun d => d.refused = false → Files d) fun d p => ∃ rest, p.Consistent d rest := by
  refine h.holds (fun d p _ ha hF ho => ?_) (fun d p ⟨_, hc⟩ hd => (hc.files hd).1)
    (fun d p a o d' p' _ ha ⟨rest, hc⟩ hs => ?_) fun _ => Sys.init_files
  · have hF := hF (hP.opens d ha)
    exact ⟨[], (Process.opened hF ho).consistent hF⟩
  · refine ⟨_, hc.step (fun w b he => hP.commits d p w b (he ▸ ha)) ?_ hs⟩
    exact fun _ mt he hf => hremove d p mt (he ▸ ha) hf

end runs

end LowDB
