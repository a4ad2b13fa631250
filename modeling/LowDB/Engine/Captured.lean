import LowDB.Engine.Reads

/-! # Captured states

A state that a process has captured keeps its memtables, but goes on to share the active one and the
tables.  `Process.Ordered` is what holds in every run, whatever fails and whatever files are opened:
new memtables have new ids, a timestamp taken is above the visible one, and a table that is installed
has the newest versions of a frozen memtable.  So whatever a later state adds to a captured one is
newer than the timestamp that was visible then (`Process.Keeps`), and a lookup up to that timestamp
returns the same for ever (`captured_getSnap`). -/

namespace LowDB

open Layered

/-! ### Lookups that do not see newer versions -/

/-- A lookup depends on the entries up to its bound only. -/
theorem lookupIn_congr {es es' : List Entry} (h : Sorted es) (h' : Sorted es') (u : Str) {s : ℕ}
    (he : ∀ e : Entry, e.1.seq.toNat ≤ s → (e ∈ es ↔ e ∈ es')) :
    lookupIn es u s = lookupIn es' u s := by
  rw [lookupIn_eq, lookupIn_eq]
  rcases entryAt_newest h.pairwise_le u s with ⟨hnone, ha⟩ | ⟨x, hx, hu, hs, hmax, ha⟩
  · rcases entryAt_newest h'.pairwise_le u s with ⟨-, ha'⟩ | ⟨y, hy, hu, hs, -, -⟩
    · rw [ha, ha']
    · exact absurd (hnone y ((he y hs).mpr hy) hu) hs.not_gt
  · rcases entryAt_newest h'.pairwise_le u s with ⟨hnone', -⟩ | ⟨y, hy, hu', hs', hmax', ha'⟩
    · exact absurd (hnone' x ((he x hs).mp hx) hu) hs.not_gt
    · -- the two newest versions have one key
      have hle := hmax y ((he y hs').mpr hy) hu' hs'
      have hge := hmax' x ((he x hs).mp hx) hu hs
      have hk : x.1 = y.1 := Key.eq_of_user_seq (hu.trans hu'.symm) (hge.antisymm hle)
      rw [ha, ha', h'.eq_of_key ((he x hs).mp hx) hy hk]

/-- A list that has no version of the key up to the bound. -/
theorem lookupIn_absent {es : List Entry} (h : Sorted es) {u : Str} {s : ℕ}
    (hnone : ∀ e ∈ es, e.1.user = u → s < e.1.seq.toNat) : lookupIn es u s = .absent := by
  rw [lookupIn_eq]
  rcases entryAt_newest h.pairwise_le u s with ⟨-, ha⟩ | ⟨x, hx, hu, hs, -, -⟩
  · rw [ha]
    rfl
  · exact absurd (hnone x hx hu) hs.not_gt

/-- Nothing is found only where nothing is. -/
theorem lt_of_lookupIn_absent {es : List Entry} (h : Sorted es) {u : Str} {s : ℕ}
    (ha : lookupIn es u s = .absent) {e : Entry} (he : e ∈ es) (hu : e.1.user = u) :
    s < e.1.seq.toNat := by
  rw [lookupIn_eq] at ha
  rcases entryAt_newest h.pairwise_le u s with ⟨hnone, -⟩ | ⟨x, -, -, -, -, hx⟩
  · exact hnone e he hu
  · rw [hx] at ha
    cases hv : x.2 <;> simp [hv, Lookup.ofValue] at ha

theorem Table.Exact.get_eq [Crc32] {t : Table} (h : t.Exact) (u : Str) (s : ℕ) :
    t.sst.get u s = .ok (lookupIn (t.entries.map Entry.stored) u s) := by
  obtain ⟨hs, b, he, ht⟩ := h
  rw [ht, ← he]
  exact b.get_eq (he ▸ hs.pairwise_le) u s

/-- A table without a version of the key up to the bound. -/
theorem Table.Exact.get_absent [Crc32] {t : Table} (h : t.Exact) {u : Str} {s : ℕ}
    (hnone : ∀ e ∈ t.entries, e.1.user = u → s < e.1.seq.toNat) : t.sst.get u s = .ok .absent := by
  rw [h.get_eq, lookupIn_absent h.1.map_stored]
  intro e he
  obtain ⟨x, hx, rfl⟩ := List.mem_map.mp he
  exact hnone x hx

/-! ### What holds in every run -/

/-- The table of the flush under way answers like its entries. -/
def NewTable [Crc32] (f : FlushLock) (mems : ℕ → MemTable) (tables : List Table) : Prop :=
  match f with
  | .renamed _ t => t.Exact
  | .installed mt => (mems mt).entries = [] ∨ ∀ t ∈ tables.head?, t.Exact
  | _ => True

/-- Only the frozen memtables matter. -/
theorem NewTable.congr [Crc32] {f : FlushLock} {frozen : List ℕ} {mems mems' : ℕ → MemTable}
    {tables : List Table} (h : NewTable f mems tables) (hf : Flush f frozen mems tables)
    (hm : ∀ id ∈ frozen, mems' id = mems id) : NewTable f mems' tables := by
  cases f with
  | installed mt =>
      obtain ⟨⟨fs, hfs⟩, -⟩ := hf
      have h : (mems mt).entries = [] ∨ ∀ t ∈ tables.head?, t.Exact := h
      show (mems' mt).entries = [] ∨ ∀ t ∈ tables.head?, t.Exact
      rwa [hm mt (by simp [hfs])]
  | _ => exact h

namespace Process

variable {d d' : Dir} {p p' : Process} {a : Act} {o : Out} {rest : List ℕ}

def NewTable [Crc32] (p : Process) : Prop := LowDB.NewTable p.flush p.mems p.storage.tables

/-- The invariants that rest on nothing about the files. -/
structure Ordered [Crc32] (d : Dir) (p : Process) (rest : List ℕ) : Prop where
  conflicts : p.Conflicts
  ids : p.Ids d rest
  flush : p.Flush
  table : p.NewTable
  ts : ∀ ts ∈ p.commit.openTs, ts < 2 ^ 64

section
variable [Crc32]

theorem newTable_step (h : p.NewTable) (hi : p.Ids d rest) (hfl : p.Flush)
    (hs : Step d p a o d' p') : p'.NewTable := by
  cases hs with
  | put =>
      refine LowDB.NewTable.congr h hfl fun id hid => Function.update_of_ne ?_ _ _
      rintro rfl
      exact active_notMem_frozen hi (List.mem_append_left _ hid)
  | @swap _ new hc =>
      unfold Ids at hi
      rw [hc] at hi
      refine LowDB.NewTable.congr h hfl fun id hid => Function.update_of_ne ?_ _ _
      rintro rfl
      have hn : id ∉ p.state.ids ++ (p.flush.held ++ rest) := (List.nodup_cons.mp hi.nodup).1
      exact hn (List.mem_append_left _ (List.mem_cons_of_mem _ hid))
  | pick => trivial
  | writeTable hf hw =>
      obtain ⟨b, hb, hbytes, hm⟩ := writeL0_some hw
      refine ⟨(p.mems _).sorted.newest, b, hb, ?_⟩
      rw [hbytes, hm]
      rfl
  | writeNothing hf hw => exact .inl (writeL0_none hw)
  | writeRefused => trivial
  | writeTableFails => trivial
  | install hf =>
      unfold NewTable LowDB.NewTable at h
      rw [hf] at h
      refine .inr ?_
      intro t ht
      rw [DiskStorage.tables_install] at ht
      cases ht
      exact h
  | retire => trivial
  | removeLog => trivial
  | removeLogFails => trivial
  | _ => exact h

/-- A timestamp is taken while the counter is below its bound. -/
theorem ts_step (h : ∀ ts ∈ p.commit.openTs, ts < 2 ^ 64) (hs : Step d p a o d' p') :
    ∀ ts ∈ p'.commit.openTs, ts < 2 ^ 64 := by
  cases hs with
  | stamp hc hlt => exact fun ts hts => Option.some_inj.mp hts ▸ hlt
  | appendBegin hc => rw [hc] at h; exact h
  | appendBatch hc => rw [hc] at h; exact h
  | appendCommit hc => rw [hc] at h; exact h
  | put hc => rw [hc] at h; exact h
  | record hc => rw [hc] at h; exact h
  | set => exact fun _ h => nomatch h
  | commit => exact fun _ h => nomatch h
  | refuse => exact fun _ h => nomatch h
  | appendFails => exact fun _ h => nomatch h
  | publish => exact fun _ h => nomatch h
  | watermark => exact fun _ h => nomatch h
  | prune => exact fun _ h => nomatch h
  | finish => exact fun _ h => nomatch h
  | freeze => exact fun _ h => nomatch h
  | createLog => exact fun _ h => nomatch h
  | createLogFails => exact fun _ h => nomatch h
  | freezeFails => exact fun _ h => nomatch h
  | swap => exact fun _ h => nomatch h
  | _ => exact h

theorem Ordered.step (h : p.Ordered d rest) (hs : Step d p a o d' p') :
    p'.Ordered d' (p.restAfter rest a) :=
  ⟨conflicts_step h.conflicts hs, ids_step h.ids h.flush hs, flush_step h.flush h.ids hs,
    newTable_step h.table h.ids h.flush hs, ts_step h.ts hs⟩

end

/-! ### Opening -/

theorem heapOf_cases (ts : List MemTable) (id : ℕ) :
    (∃ t ∈ ts, t.id = id ∧ heapOf ts id = t) ∨ heapOf ts id = .new id := by
  unfold heapOf
  cases h : ts.find? (fun t => t.id = id) with
  | none => exact .inr rfl
  | some t =>
      refine .inl ⟨t, List.mem_of_find?_eq_some h, ?_, rfl⟩
      simpa using List.find?_some h

/-- What `DB::open` returns on any files with logs in ascending order. -/
theorem ordered_open [Crc32] (hs : (d.wal.map Log.id).Pairwise fun a b => a < b)
    (h : openDb (d.wal.map Log.file) d.ss = .ok p) :
    p.Ordered (d.addLog p.state.memTable) [] ∧
      ∀ id, ∀ e ∈ (p.mems id).entries, e.1.seq.toNat ≤ p.oracle.visible := by
  obtain ⟨restored, storage, hr, _, rfl⟩ := openDb_eq h
  unfold restore at hr
  rw [loadWals_eq hs] at hr
  obtain ⟨hids, hle⟩ := restoreTables_inv hr
  have hids : restored.tables.map MemTable.id = (d.wal.map Log.id).reverse := by
    rw [hids, List.map_map, List.map_reverse]
    rfl
  have hlt : ∀ id ∈ d.wal.map Log.id, id < latestId (d.wal.map Log.file) + 1 := by
    intro id hid
    obtain ⟨l, hl, rfl⟩ := List.mem_map.mp hid
    have hmem : l.file ∈ d.wal.map Log.file := List.mem_map_of_mem hl
    exact Nat.lt_succ_of_le (le_latestId hmem)
  constructor
  · refine ⟨.new _ _, ?_, trivial, trivial, fun _ h => nomatch h⟩
    unfold Ids State.ids Dir.addLog
    rw [List.map_append]
    show LowDB.Ids _ _ (_ :: restored.tables.map MemTable.id) _ _ _ _
    rw [hids]
    refine .open hs hlt ?_
    intro id hid
    rcases heapOf_cases restored.tables id with ⟨t, ht, rfl, -⟩ | he
    · have hmem : t.id ∈ restored.tables.map MemTable.id := List.mem_map_of_mem ht
      rw [hids] at hmem
      exact absurd (hlt _ (List.mem_reverse.mp hmem)) hid.not_gt
    · show (heapOf restored.tables id).entries = []
      rw [he]
      rfl
  · intro id e he
    have he : e ∈ (heapOf restored.tables id).entries := he
    rcases heapOf_cases restored.tables id with ⟨t, ht, -, hm⟩ | hm
    · rw [hm] at he
      exact (hle t ht e he).trans ((le_max_right _ _).trans (Nat.le_succ _))
    · rw [hm] at he
      cases he

end Process

section runs
variable [Crc32] {P : Sys → Act → Prop} {s : Sys}

/-- The invariants hold in every run, whatever fails and whatever files are opened. -/
theorem Run.ordered (h : Reach P s) :
    s.Holds (fun d => (d.wal.map Log.id).Pairwise fun a b => a < b)
      fun d p => ∃ rest, p.Ordered d rest := by
  refine h.holds (fun d p _ _ hs ho => ?_) (fun d p ⟨_, hp⟩ => hp.ids.sorted)
    (fun d p a o d' p' _ _ ⟨_, hp⟩ hs => ?_) List.Pairwise.nil
  · exact ⟨[], (Process.ordered_open hs ho).1⟩
  · exact ⟨_, hp.step hs⟩

end runs

/-! ### What a captured state sees -/

namespace Process

variable {d d' : Dir} {p q q' : Process} {a : Act} {o : Out} {rest : List ℕ} {k : Str} {s : ℕ}

/-- What `q` has added to `p` since its state was captured is newer than what was visible then, or in
a memtable captured. -/
structure Keeps [Crc32] (p q : Process) : Prop where
  visible : p.oracle.visible ≤ q.oracle.visible
  mems : ∀ id ∈ p.state.ids, ∀ e : Entry, e.1.seq.toNat ≤ p.oracle.visible →
    (e ∈ (p.mems id).entries ↔ e ∈ (q.mems id).entries)
  later : ∀ id ∈ q.state.ids, id ∉ p.state.ids → ∀ e ∈ (q.mems id).entries,
    p.oracle.visible < e.1.seq.toNat
  tables : ∃ ts, q.storage.tables = ts ++ p.storage.tables ∧ ∀ t ∈ ts, t.Exact ∧
    ∀ e ∈ t.entries, e.1.seq.toNat ≤ p.oracle.visible →
      ∃ id ∈ p.state.ids, e ∈ (p.mems id).entries

/-- A memtable that has never been written is as good as a new one. -/
theorem entries_update_new {mems : ℕ → MemTable} {id : ℕ} (h : (mems id).entries = []) (i : ℕ) :
    (Function.update mems id (.new id) i).entries = (mems i).entries := by
  by_cases hi : i = id
  · rw [hi, Function.update_self, h, MemTable.new_entries]
  · rw [Function.update_of_ne hi]

theorem searchMems_eq_absent {ts : List MemTable} :
    searchMems k s ts = .absent ↔ ∀ t ∈ ts, t.getSnap k s = .absent := by
  induction ts with
  | nil => simp [searchMems]
  | cons t ts ih =>
      rw [List.forall_mem_cons, ← ih, searchMems]
      split
      case h_1 ha => exact ⟨fun h => ⟨ha, h⟩, And.right⟩
      case h_2 hne => exact ⟨fun h => absurd h hne, fun h => absurd h.1 hne⟩

theorem searchMems_congr {ids : List ℕ} {f g : ℕ → MemTable}
    (h : ∀ id ∈ ids, (f id).getSnap k s = (g id).getSnap k s) :
    searchMems k s (ids.map f) = searchMems k s (ids.map g) := by
  induction ids with
  | nil => rfl
  | cons id ids ih =>
      rw [List.map_cons, List.map_cons, searchMems, searchMems, h id List.mem_cons_self,
        ih fun i hi => h i (List.mem_cons_of_mem _ hi)]

namespace Keeps

variable [Crc32]

theorem refl (p : Process) : Keeps p p where
  visible := le_rfl
  mems _ _ _ _ := Iff.rfl
  later _ hid hn := absurd hid hn
  tables := ⟨[], rfl, fun _ h => nomatch h⟩

/-- Steps that touch no memtable in use and no table. -/
theorem frame (h : p.Keeps q) (hv : q.oracle.visible ≤ q'.oracle.visible) (hm : q'.mems = q.mems)
    (hst : q'.state.ids ⊆ q.state.ids) (ht : q'.storage.tables = q.storage.tables) :
    p.Keeps q' where
  visible := h.visible.trans hv
  mems := by rw [hm]; exact h.mems
  later id hid := by rw [hm]; exact h.later id (hst hid)
  tables := by rw [ht]; exact h.tables

/-- A write into the active memtable of a version newer than all visible ones. -/
theorem put (h : p.Keeps q) {e : Entry} {c : CommitLock} (he : q.oracle.visible < e.1.seq.toNat) :
    p.Keeps { q with
      mems := Function.update q.mems q.state.memTable ((q.mems q.state.memTable).put e.1 e.2)
      commit := c } := by
  have hlt : p.oracle.visible < e.1.seq.toNat := h.visible.trans_lt he
  have hmem : ∀ id (x : Entry), x ∈ (Function.update q.mems q.state.memTable
      ((q.mems q.state.memTable).put e.1 e.2) id).entries →
      x ∈ (q.mems id).entries ∨ x = e := by
    intro id x hx
    by_cases hid : id = q.state.memTable
    · rw [hid, Function.update_self, MemTable.put_entries] at hx
      exact hid ▸ (List.mem_cons.mp (insertEntry_subset _ _ hx)).symm
    · rw [Function.update_of_ne hid] at hx
      exact .inl hx
  have hsub : ∀ id, (q.mems id).entries ⊆ (Function.update q.mems q.state.memTable
      ((q.mems q.state.memTable).put e.1 e.2) id).entries := by
    intro id x hx
    by_cases hid : id = q.state.memTable
    · rw [hid] at hx ⊢
      rw [Function.update_self, MemTable.put_entries]
      exact subset_insertEntry _ _ hx
    · rwa [Function.update_of_ne hid]
  exact {
    visible := h.visible
    mems := fun id hid x hx => by
      rw [h.mems id hid x hx]
      refine ⟨fun hm => hsub id hm, fun hm => (hmem id x hm).resolve_right ?_⟩
      rintro rfl
      exact hlt.not_ge hx
    later := fun id hid hn x hx => by
      cases hmem id x hx with
      | inl hx => exact h.later id hid hn x hx
      | inr hx => exact hx ▸ hlt
    tables := h.tables }

/-- A new memtable is empty, and has been so all the time. -/
theorem swap (h : p.Keeps q) {id : ℕ} {c : CommitLock} (hid : (q.mems id).entries = []) :
    p.Keeps { q with
      mems := Function.update q.mems id (.new id)
      state := ⟨id, q.state.ids⟩
      walBuf := []
      commit := c } := by
  have hmem := entries_update_new hid
  exact {
    visible := h.visible
    mems := fun i hi e he => by
      rw [h.mems i hi e he, hmem]
    later := fun i hi hn e he => by
      rw [hmem] at he
      cases List.mem_cons.mp hi with
      | inl hi =>
          rw [hi, hid] at he
          cases he
      | inr hi => exact h.later i hi hn e he
    tables := h.tables }

/-- A table of the newest versions of a frozen memtable. -/
theorem install (h : p.Keeps q) {mt : ℕ} {t : Table} {f : FlushLock} (hmt : mt ∈ q.state.frozen)
    (hex : t.Exact) (ht : t.entries = newest (q.mems mt).entries) :
    p.Keeps { q with storage := q.storage.install t, flush := f } where
  visible := h.visible
  mems := h.mems
  later := h.later
  tables := by
    obtain ⟨ts, hts, hall⟩ := h.tables
    refine ⟨t :: ts, ?_, List.forall_mem_cons.mpr ⟨⟨hex, fun e he hle => ?_⟩, hall⟩⟩
    · rw [DiskStorage.tables_install, hts]
      rfl
    · have he : e ∈ (q.mems mt).entries := (newest_sublist _).subset (ht ▸ he)
      by_cases hid : mt ∈ p.state.ids
      · exact ⟨mt, hid, (h.mems mt hid e hle).mpr he⟩
      · exact absurd hle (h.later mt (List.mem_cons_of_mem _ hmt) hid e he).not_ge

theorem step (h : p.Keeps q) (hq : q.Ordered d rest) (hs : Step d q a o d' q') : p.Keeps q' := by
  have hco := hq.conflicts
  have hts := hq.ts
  unfold Conflicts at hco
  cases hs with
  | stamp hc => exact h.frame le_rfl rfl (fun _ h => h) rfl
  | put hc he =>
      rw [hc] at hco hts
      apply h.put
      rw [Buffer.seq_of_mem_batch (hts _ rfl) (List.mem_of_getElem? he)]
      exact (hco.openTs _ rfl).1
  | publish hc =>
      rw [hc] at hco
      exact h.frame (hco.openTs _ rfl).1.le rfl (fun _ h => h) rfl
  | swap hc =>
      have hi := hq.ids
      unfold Ids at hi
      rw [hc] at hi
      exact h.swap (hi.unused _ (.inl (List.mem_singleton.mpr rfl)))
  | install hf =>
      have hfl := hq.flush
      have hnt := hq.table
      unfold Flush at hfl
      unfold NewTable at hnt
      rw [hf] at hfl hnt
      obtain ⟨⟨fs, hfs⟩, ht⟩ := hfl
      exact h.install (by rw [hfs]; exact List.mem_concat_self) hnt ht
  | retire hf =>
      refine h.frame le_rfl rfl (fun id hid => ?_) rfl
      cases List.mem_cons.mp hid with
      | inl hid => exact hid ▸ List.mem_cons_self
      | inr hid => exact List.mem_cons_of_mem _ (List.mem_filter.mp hid).1
  | _ => exact h.frame le_rfl rfl (fun _ h => h) rfl

/-- A captured memtable answers the same. -/
theorem getSnap_eq (h : p.Keeps q) {id : ℕ} (hid : id ∈ p.state.ids) (hs : s ≤ p.oracle.visible) :
    (q.mems id).getSnap k s = (p.mems id).getSnap k s :=
  (lookupIn_congr (p.mems id).sorted (q.mems id).sorted k fun e he =>
    h.mems id hid e (he.trans hs)).symm

theorem searchMems_eq (h : p.Keeps q) (hs : s ≤ p.oracle.visible) :
    searchMems k s (q.memTables p.state) = searchMems k s (p.memTables p.state) :=
  searchMems_congr fun _ hid => h.getSnap_eq hid hs

/-- Where the captured memtables are silent, so are the new tables. -/
theorem storage_getSnap (h : p.Keeps q) (hs : s ≤ p.oracle.visible)
    (ha : searchMems k s (p.memTables p.state) = .absent) :
    q.storage.getSnap k s = p.storage.getSnap k s := by
  obtain ⟨ts, hts, hall⟩ := h.tables
  unfold DiskStorage.getSnap
  rw [hts]
  clear hts
  induction ts with
  | nil => rfl
  | cons t ts ih =>
      obtain ⟨⟨hex, hle⟩, hall⟩ := List.forall_mem_cons.mp hall
      have hsilent : t.sst.get k s = .ok .absent := by
        apply hex.get_absent
        intro e he hu
        by_contra hlt
        have hes : e.1.seq.toNat ≤ s := Nat.le_of_not_lt hlt
        obtain ⟨id, hid, he⟩ := hle e he (hes.trans hs)
        have hg := searchMems_eq_absent.mp ha (p.mems id) (List.mem_map_of_mem hid)
        exact hlt (lt_of_lookupIn_absent (p.mems id).sorted hg he hu)
      rw [List.cons_append, DiskStorage.searchTables, hsilent]
      exact ih hall

end Keeps

variable [Crc32]

/-- `State::get_snap` that looks into the memtables in `p` and later into the tables in `p'`. -/
def getSnapUntil (p p' : Process) (st : State) (key : Str) (seq : ℕ) : DbResult (Option Str) :=
  match searchMems key seq (p.memTables st) with
  | .absent => (p'.storage.getSnap key seq).map Lookup.value
  | lookup => .ok lookup.value

theorem getSnapUntil_self (p : Process) (st : State) (key : Str) (seq : ℕ) :
    p.getSnapUntil p st key seq = p.getSnap st key seq := rfl

end Process

section runs
variable [Crc32] {s t u : Sys} {p q q' : Process} {k : Str} {seq : ℕ}

theorem Run.keeps (hs : Reach Any s) (hp : s.proc = some p) (h : Run (Alive Any) s t) :
    ∃ q, t.proc = some q ∧ p.Keeps q := by
  refine h.along (I := fun _ q => p.Keeps q) (fun _ _ ha => ha.2)
    (fun d q a o d' q' hr _ hk hst => ?_) hp (.refl p)
  obtain ⟨rest, ho⟩ := (hs.trans (hr.mono fun _ _ h => h.1)).ordered
  exact hk.step ho hst

/-- **A captured state is stable**: up to the timestamp that was visible when it was captured, every
later lookup in it returns the same, whatever happens in between and while it goes on. -/
theorem captured_getSnap (hs : Reach Any s) (hp : s.proc = some p)
    (hle : seq ≤ p.oracle.visible) (ht : Run (Alive Any) s t) (hq : t.proc = some q)
    (hu : Run (Alive Any) t u) (hq' : u.proc = some q') :
    q.getSnapUntil q' p.state k seq = p.getSnap p.state k seq := by
  obtain ⟨q₁, hq₁, hk⟩ := Run.keeps hs hp ht
  obtain ⟨q₂, hq₂, hk'⟩ := Run.keeps hs hp (ht.trans hu)
  cases hq.symm.trans hq₁
  cases hq'.symm.trans hq₂
  unfold Process.getSnapUntil
  rw [hk.searchMems_eq hle]
  by_cases ha : searchMems k seq (p.memTables p.state) = .absent
  · rw [Process.getSnap_of_absent ha, ha, hk'.storage_getSnap hle ha]
  · rw [Process.getSnap_of_ne ha]
    split
    case h_1 ha' => exact absurd ha' ha
    case h_2 => rfl

end runs

/-- A state with a version of `k`, and what follows: the version is superseded in the shared memtable,
which is then flushed. -/
def capturedGetSnapOverrun : Option (Sys × Sys × Process × Process × Str) := do
  let s ← @exec crc32 Any _ .init (.open :: setActs keyK textOne)
  let t ← @exec crc32 (Alive Any) _ s (setActs keyK textTwo ++ freezeActs ++ flushActs)
  let p ← s.proc
  let q ← t.proc
  match @Process.getSnap crc32 p p.state keyK p.oracle.visible, q.state.frozen,
    decide (p.oracle.visible < q.oracle.visible) with
  | .ok (some v), [], true => return (s, t, p, q, v)
  | _, _, _ => none

theorem captured_getSnap_overrun : ∃ (s t : Sys) (p q : Process) (v : Str),
    s.proc = some p ∧ t.proc = some q ∧ p.oracle.visible < q.oracle.visible ∧
      q.state.frozen = [] ∧ @Process.getSnap crc32 p p.state keyK p.oracle.visible = .ok (some v) ∧
      @Process.getSnap crc32 q p.state keyK p.oracle.visible = .ok (some v) := by
  have h : capturedGetSnapOverrun.isSome := by decide +kernel
  obtain ⟨⟨s, t, p, q, v⟩, h⟩ := Option.isSome_iff_exists.mp h
  unfold capturedGetSnapOverrun at h
  simp only [bind, Option.bind_eq_some_iff] at h
  obtain ⟨_, hs, _, ht, _, hp, _, hq, he⟩ := h
  split at he
  case h_2 => cases he
  case h_1 hv hf hlt =>
    cases he
    have hst := @captured_getSnap crc32 s t t p q q keyK p.oracle.visible
      (@reach_of_exec crc32 _ _ _ _ hs) hp le_rfl
      (@run_of_exec crc32 _ _ _ _ _ _ (@Run.refl crc32 _ s) ht) hq (@Run.refl crc32 _ t) hq
    rw [@Process.getSnapUntil_self crc32] at hst
    exact ⟨s, t, p, q, v, hp, hq, of_decide_eq_true hlt, hf, hv, hst.trans hv⟩

end LowDB
