import LowDB.Engine.Conflicts

/-! # Where a process stands

Three invariants tie the holders of the locks to the rest of a process.  `Ids`: the logs on disk are,
from the newest to the oldest, the one just created, those of the memtables in use, that of a
memtable being retired, and `rest`, those whose removal has failed.  `Phase`: the versions newer than
the visible timestamp are those of the commit under way, in the active memtable as far as they are
put, in the history once the commit record is written.  `Flush`: a memtable that is flushed is the
oldest frozen one, and its table is the first. -/

namespace LowDB

open Layered

/-! ### The logs and the memtables in use -/

namespace CommitLock

/-- The log that `force_freeze` has created. -/
def newLogs : CommitLock → List ℕ
  | created _ id => [id]
  | _ => []

end CommitLock

namespace FlushLock

/-- The memtable retired, whose log is still there. -/
def held : FlushLock → List ℕ
  | retired mt => [mt]
  | _ => []

end FlushLock

/-- `wal` are the ids of the logs in the order of their creation, `fresh` the logs of no memtable yet,
`ids` the memtables in use, `held` a retired one. -/
structure Ids (wal fresh ids held rest : List ℕ) (next : ℕ) (mems : ℕ → MemTable) : Prop where
  order : wal.reverse = fresh ++ (ids ++ (held ++ rest))
  sorted : wal.Pairwise fun a b => a < b
  lt : ∀ id ∈ wal, id < next
  unused : ∀ id, id ∈ fresh ∨ next ≤ id → (mems id).entries = []

namespace Ids

variable {wal fresh ids held rest : List ℕ} {next id : ℕ} {mems : ℕ → MemTable}

theorem nodup (h : Ids wal fresh ids held rest next mems) :
    (fresh ++ (ids ++ (held ++ rest))).Nodup := by
  rw [← h.order, List.nodup_reverse]
  exact h.sorted.imp fun h => h.ne

theorem mem_wal (h : Ids wal fresh ids held rest next mems) :
    id ∈ wal ↔ id ∈ fresh ++ (ids ++ (held ++ rest)) := by
  rw [← h.order, List.mem_reverse]

/-- From the newest to the oldest. -/
theorem desc (h : Ids wal fresh ids held rest next mems) :
    (fresh ++ (ids ++ (held ++ rest))).Pairwise fun a b => b < a := by
  rw [← h.order, List.pairwise_reverse]
  exact h.sorted

/-- After opening, with the log of the new active memtable. -/
theorem «open» (hs : wal.Pairwise fun a b => a < b) (hlt : ∀ i ∈ wal, i < id)
    (hm : ∀ i, id < i → (mems i).entries = []) :
    Ids (wal ++ [id]) [] (id :: wal.reverse) [] [] (id + 1) mems where
  order := by simp
  sorted := by
    refine List.pairwise_append.mpr ⟨hs, List.pairwise_singleton _ _, ?_⟩
    intro a ha b hb
    exact List.mem_singleton.mp hb ▸ hlt a ha
  lt i hi := by
    cases List.mem_append.mp hi with
    | inl hi => exact (hlt i hi).trans (Nat.lt_succ_self _)
    | inr hi => exact List.mem_singleton.mp hi ▸ Nat.lt_succ_self _
  unused i hi := hm i (hi.resolve_left List.not_mem_nil)

theorem create (h : Ids wal [] ids held rest next mems) :
    Ids (wal ++ [next]) [next] ids held rest (next + 1) mems where
  order := by simp [h.order]
  sorted := by
    refine List.pairwise_append.mpr ⟨h.sorted, List.pairwise_singleton _ _, ?_⟩
    intro a ha b hb
    exact List.mem_singleton.mp hb ▸ h.lt a ha
  lt i hi := by
    cases List.mem_append.mp hi with
    | inl hi => exact (h.lt i hi).trans (Nat.lt_succ_self _)
    | inr hi => exact List.mem_singleton.mp hi ▸ Nat.lt_succ_self _
  unused i hi := by
    refine h.unused i (.inr ?_)
    cases hi with
    | inl hi => exact (List.mem_singleton.mp hi).ge
    | inr hi => omega

theorem skip (h : Ids wal fresh ids held rest next mems) :
    Ids wal fresh ids held rest (next + 1) mems where
  order := h.order
  sorted := h.sorted
  lt i hi := (h.lt i hi).trans (Nat.lt_succ_self _)
  unused i hi := h.unused i (hi.imp_right fun hi => by omega)

theorem swap (h : Ids wal [id] ids held rest next mems) :
    Ids wal [] (id :: ids) held rest next (Function.update mems id (.new id)) where
  order := h.order
  sorted := h.sorted
  lt := h.lt
  unused i hi := by
    have hid : id ∈ wal := h.mem_wal.mpr List.mem_cons_self
    have hne : i ≠ id := by
      rintro rfl
      exact (hi.resolve_left List.not_mem_nil).not_gt (h.lt i hid)
    rw [Function.update_of_ne hne]
    exact h.unused i (.inr (hi.resolve_left List.not_mem_nil))

theorem put {t : MemTable} (h : Ids wal fresh ids held rest next mems) (hid : id ∈ ids) :
    Ids wal fresh ids held rest next (Function.update mems id t) where
  order := h.order
  sorted := h.sorted
  lt := h.lt
  unused i hi := by
    have hne : i ≠ id := by
      rintro rfl
      cases hi with
      | inl hi =>
          exact (List.nodup_append.mp h.nodup).2.2 i hi i (List.mem_append_left _ hid) rfl
      | inr hi =>
          exact hi.not_gt (h.lt i (h.mem_wal.mpr (List.mem_append_right _
            (List.mem_append_left _ hid))))
    rw [Function.update_of_ne hne]
    exact h.unused i hi

theorem retire {a : ℕ} {fs : List ℕ} (h : Ids wal fresh (a :: (fs ++ [id])) [] rest next mems) :
    Ids wal fresh (a :: fs) [id] rest next mems where
  order := by rw [h.order]; simp
  sorted := h.sorted
  lt := h.lt
  unused := h.unused

theorem filter_eq {l : List ℕ} (h : id ∉ l) : l.filter (fun i => i ≠ id) = l :=
  List.filter_eq_self.mpr fun i hi => by simpa using fun he : i = id => h (he ▸ hi)

theorem remove (h : Ids wal fresh ids [id] rest next mems) :
    Ids (wal.filter fun i => i ≠ id) fresh ids [] rest next mems where
  order := by
    have hn := h.nodup
    obtain ⟨_, hi, hf⟩ := List.nodup_append.mp hn
    obtain ⟨_, hr, hi⟩ := List.nodup_append.mp hi
    have h₁ : id ∉ fresh := fun hx => hf id hx id (by simp) rfl
    have h₂ : id ∉ ids := fun hx => hi id hx id (by simp) rfl
    have h₃ : id ∉ rest := (List.nodup_cons.mp hr).1
    rw [← List.filter_reverse, h.order]
    simp only [List.filter_append, filter_eq h₁, filter_eq h₂, filter_eq h₃]
    simp
  sorted := h.sorted.filter _
  lt i hi := h.lt i (List.mem_filter.mp hi).1
  unused := h.unused

/-- The removal of a log fails. -/
theorem leave (h : Ids wal fresh ids held rest next mems) :
    Ids wal fresh ids [] (held ++ rest) next mems :=
  ⟨h.order, h.sorted, h.lt, h.unused⟩

end Ids

/-! ### The versions of the commit under way -/

namespace CommitLock

/-- Its entries in the active memtable. -/
def applied : CommitLock → List Entry
  | logged c ts n => (c.buffer.batch ts).take n
  | sealed c ts | recorded c ts => c.buffer.batch ts
  | _ => []

/-- Its entries in the history. -/
def sealedEntries : CommitLock → List Entry
  | sealed c ts | recorded c ts => c.buffer.batch ts
  | _ => []

end CommitLock

/-- The entries of a batch are in key order. -/
theorem Buffer.sorted_batch (b : Buffer) (ts : ℕ) :
    (b.batch ts).Pairwise fun x y => x.1.user < y.1.user :=
  List.pairwise_map.mpr b.sorted

theorem Buffer.sorted_batch' (b : Buffer) (ts : ℕ) : Sorted (b.batch ts) :=
  (b.sorted_batch ts).imp fun h => Key.lt_iff.mpr (.inl h)

theorem Buffer.seq_of_mem_batch {b : Buffer} {ts : ℕ} (hts : ts < 2 ^ 64) {e : Entry}
    (he : e ∈ b.batch ts) : e.1.seq.toNat = ts := by
  obtain ⟨x, _, rfl⟩ := List.mem_map.mp he
  exact UInt64.toNat_ofNat'.trans (Nat.mod_eq_of_lt hts)

theorem Buffer.time_of_layer_batch {b : Buffer} {ts : ℕ} (hts : ts < 2 ^ 64) {k : Str} {n : ℕ}
    {v : Option Str} (h : (k, n, v) ∈ layer (b.batch ts)) : n = ts := by
  obtain ⟨e, he, hx⟩ := h
  cases hx
  exact seq_of_mem_batch hts he

theorem mem_layer_iff {es : List Entry} {k : Str} {n : ℕ} {v : Option Str} :
    (k, n, v) ∈ layer es ↔ ∃ e ∈ es, e.version = (k, n, v) := Iff.rfl

/-- A version put into a memtable that does not have it. -/
theorem mem_layer_put {es : List Entry} (hs : Sorted es) {e : Entry} (hne : ∀ y ∈ es, y.1 ≠ e.1)
    {x : Version} : x ∈ layer (insertEntry e es) ↔ x ∈ layer es ∨ e.version = x := by
  constructor
  · rintro ⟨y, hy, hx⟩
    cases (mem_insertEntry hs).mp hy with
    | inl hy => exact .inl ⟨y, hy, hx⟩
    | inr hy => exact .inr (hy.1 ▸ hx)
  · intro h
    cases h with
    | inl h =>
        obtain ⟨y, hy, hx⟩ := h
        exact ⟨y, (mem_insertEntry hs).mpr (.inl hy), hx⟩
    | inr h => exact ⟨e, (mem_insertEntry hs).mpr (.inr ⟨rfl, hne⟩), h⟩

/-- The versions newer than `visible` in the history and in the active memtable `es`. -/
structure Phase (hist : List Version) (visible : ℕ) (es : List Entry) (c : CommitLock) :
    Prop where
  active : ∀ k n v, visible < n → ((k, n, v) ∈ layer es ↔ (k, n, v) ∈ layer c.applied)
  hist : ∀ k n v, visible < n → ((k, n, v) ∈ hist ↔ (k, n, v) ∈ layer c.sealedEntries)
  ts : ∀ ts ∈ c.openTs, ts < 2 ^ 64

namespace Phase

variable {hist : List Version} {visible : ℕ} {es : List Entry} {c c' : CommitLock}

/-- Steps that put and seal nothing. -/
theorem lock (h : Phase hist visible es c) (ha : c'.applied = c.applied)
    (hs : c'.sealedEntries = c.sealedEntries) (ht : ∀ ts ∈ c'.openTs, ts ∈ c.openTs) :
    Phase hist visible es c' where
  active := by rw [ha]; exact h.active
  hist := by rw [hs]; exact h.hist
  ts t ht' := h.ts t (ht t ht')

/-- No version is newer than the visible timestamp. -/
theorem hist_le (h : Phase hist visible es c) (hs : c.sealedEntries = []) {k : Str} {n : ℕ}
    {v : Option Str} (hx : (k, n, v) ∈ hist) : n ≤ visible := by
  by_contra hlt
  have hx := (h.hist k n v (by omega)).mp hx
  rw [hs, layer_nil] at hx
  exact hx

theorem put {cm : Commit} {ts n : ℕ} {e : Entry} (h : Phase hist visible es (.logged cm ts n))
    (hs : Sorted es) (hlt : visible < ts) (he : (cm.buffer.batch ts)[n]? = some e) :
    Phase hist visible (insertEntry e es) (.logged cm ts (n + 1)) := by
  have hts := h.ts ts rfl
  obtain ⟨hn, he'⟩ := List.getElem?_eq_some_iff.mp he
  have hmem : e ∈ cm.buffer.batch ts := List.mem_of_getElem? he
  have htake : (cm.buffer.batch ts).take (n + 1) = (cm.buffer.batch ts).take n ++ [e] := by
    rw [← he', List.take_append_getElem]
  have hne : ∀ y ∈ es, y.1 ≠ e.1 := by
    intro y hy hye
    have hseq : y.1.seq.toNat = ts := hye ▸ Buffer.seq_of_mem_batch hts hmem
    have hx := (h.active y.1.user y.1.seq.toNat y.2.text (by omega)).mp (mem_layer hy)
    obtain ⟨z, hz, hzy⟩ := hx
    have hpre := cm.buffer.sorted_batch ts
    rw [← List.take_append_drop (n + 1) (cm.buffer.batch ts), htake] at hpre
    have hlt' := (List.pairwise_append.mp (List.pairwise_append.mp hpre).1).2.2 z hz e
      (List.mem_singleton_self e)
    have hu : z.1.user = y.1.user := congrArg Prod.fst hzy
    rw [hu, hye] at hlt'
    exact lt_irrefl _ hlt'
  refine ⟨fun k m v hm => ?_, h.hist, h.ts⟩
  rw [mem_layer_put hs hne, h.active k m v hm]
  simp only [CommitLock.applied, htake, mem_layer_iff, List.mem_append, List.mem_singleton]
  constructor
  · rintro (⟨x, hx, hv⟩ | hv)
    · exact ⟨x, .inl hx, hv⟩
    · exact ⟨e, .inr rfl, hv⟩
  · rintro ⟨x, hx | rfl, hv⟩
    · exact .inl ⟨x, hx, hv⟩
    · exact .inr hv

theorem appendCommit {cm : Commit} {ts : ℕ}
    (h : Phase hist visible es (.logged cm ts (cm.buffer.batch ts).length)) :
    Phase (hist ++ (cm.buffer.batch ts).map Entry.version) visible es (.sealed cm ts) where
  active k n v hn := by
    have ha := h.active k n v hn
    rwa [CommitLock.applied, List.take_length] at ha
  hist k n v hn := by
    have hh := h.hist k n v hn
    simp only [CommitLock.sealedEntries, layer_nil, Set.mem_empty_iff_false, iff_false] at hh
    simp only [List.mem_append, hh, false_or, List.mem_map, mem_layer_iff,
      CommitLock.sealedEntries]
  ts := h.ts

theorem publish {cm : Commit} {ts : ℕ} (h : Phase hist visible es (.recorded cm ts))
    (hlt : visible < ts) : Phase hist ts es (.published cm ts) where
  active k n v hn := by
    have hne : (k, n, v) ∉ layer (cm.buffer.batch ts) := fun hx =>
      hn.ne' (Buffer.time_of_layer_batch (h.ts ts rfl) hx)
    simp only [CommitLock.applied, layer_nil, Set.mem_empty_iff_false, iff_false]
    exact fun hx => hne ((h.active k n v (hlt.trans hn)).mp hx)
  hist k n v hn := by
    have hne : (k, n, v) ∉ layer (cm.buffer.batch ts) := fun hx =>
      hn.ne' (Buffer.time_of_layer_batch (h.ts ts rfl) hx)
    simp only [CommitLock.sealedEntries, layer_nil, Set.mem_empty_iff_false, iff_false]
    exact fun hx => hne ((h.hist k n v (hlt.trans hn)).mp hx)
  ts _ ht := nomatch ht

/-- A new, empty memtable becomes active. -/
theorem swap (h : Phase hist visible es c) (hs : c.sealedEntries = []) :
    Phase hist visible [] .free where
  active k n v _ := Iff.rfl
  hist k n v hn := by
    rw [h.hist k n v hn, hs]
    rfl
  ts _ ht := nomatch ht

end Phase

/-! ### The memtable being flushed -/

/-- The first table is that of the memtable, unless this is empty. -/
def Flushed (mems : ℕ → MemTable) (tables : List Table) (mt : ℕ) : Prop :=
  (mems mt).entries = [] ∨
    ∃ t ts, tables = t :: ts ∧ t.entries = newest (mems mt).entries

theorem Flushed.top {mems : ℕ → MemTable} {tables : List Table} {mt : ℕ}
    (h : Flushed mems tables mt) :
    (∃ ts, tables.map (fun t => layer t.entries) = top (layer (mems mt).entries) :: ts) ∨
      layer (mems mt).entries = ∅ := by
  cases h with
  | inl he => exact .inr (by rw [he, layer_nil])
  | inr ht =>
      obtain ⟨t, ts, ht, he⟩ := ht
      refine .inl ⟨ts.map fun t => layer t.entries, ?_⟩
      rw [ht, List.map_cons, he, layer_newest (mems mt).sorted]

/-- What holds between the holder of the flush lock, the frozen memtables and the tables. -/
def Flush (f : FlushLock) (frozen : List ℕ) (mems : ℕ → MemTable) (tables : List Table) : Prop :=
  match f with
  | .free => True
  | .picked mt => ∃ fs, frozen = fs ++ [mt]
  | .renamed mt t => (∃ fs, frozen = fs ++ [mt]) ∧ t.entries = newest (mems mt).entries
  | .installed mt => (∃ fs, frozen = fs ++ [mt]) ∧ Flushed mems tables mt
  | .retired mt => Flushed mems tables mt

namespace Flush

variable {f : FlushLock} {frozen : List ℕ} {mems mems' : ℕ → MemTable} {tables : List Table}

/-- Only the frozen memtables and the one retired matter. -/
theorem congr (h : Flush f frozen mems tables) (hm : ∀ id ∈ frozen ++ f.held, mems' id = mems id) :
    Flush f frozen mems' tables := by
  have hflushed : ∀ mt, mems' mt = mems mt → Flushed mems tables mt → Flushed mems' tables mt := by
    intro mt he h
    unfold Flushed
    rwa [he]
  cases f with
  | free => trivial
  | picked mt => exact h
  | renamed mt t =>
      obtain ⟨⟨fs, hf⟩, ht⟩ := h
      exact ⟨⟨fs, hf⟩, by rw [ht, hm mt (by simp [hf])]⟩
  | installed mt =>
      obtain ⟨⟨fs, hf⟩, ht⟩ := h
      exact ⟨⟨fs, hf⟩, hflushed mt (hm mt (by simp [hf])) ht⟩
  | retired mt => exact hflushed mt (hm mt (by simp [FlushLock.held])) h

theorem cons (h : Flush f frozen mems tables) (id : ℕ) : Flush f (id :: frozen) mems tables := by
  cases f with
  | free => trivial
  | picked mt => exact h.imp' (fun fs => id :: fs) fun fs hf => by rw [hf]; rfl
  | renamed mt t => exact ⟨h.1.imp' (fun fs => id :: fs) fun fs hf => by rw [hf]; rfl, h.2⟩
  | installed mt => exact ⟨h.1.imp' (fun fs => id :: fs) fun fs hf => by rw [hf]; rfl, h.2⟩
  | retired mt => exact h

end Flush

/-! ### Every action keeps them -/

/-- The commit record is the next to append. -/
def CommitLock.isLogged : CommitLock → Bool
  | logged _ _ _ => true
  | _ => false

namespace Process

def Ids (d : Dir) (p : Process) (rest : List ℕ) : Prop :=
  LowDB.Ids (d.wal.map Log.id) p.commit.newLogs p.state.ids p.flush.held rest p.nextWal p.mems

def Phase (d : Dir) (p : Process) : Prop :=
  LowDB.Phase d.hist p.oracle.visible (p.mems p.state.memTable).entries p.commit

def Flush (p : Process) : Prop := LowDB.Flush p.flush p.state.frozen p.mems p.storage.tables

variable {d d' : Dir} {p p' : Process} {a : Act} {o : Out} {rest : List ℕ}

/-- The logs left over after an action. -/
def restAfter (p : Process) (rest : List ℕ) : Act → List ℕ
  | .removeLogFails => p.flush.held ++ rest
  | _ => rest

theorem map_id_alterLog {id : ℕ} {f : Log → Log} (hf : ∀ l, (f l).id = l.id) :
    (d.alterLog id f).wal.map Log.id = d.wal.map Log.id := by
  unfold Dir.alterLog
  rw [List.map_map]
  apply List.map_congr_left
  intro l _
  by_cases h : l.id = id <;> simp [h, hf]

theorem map_id_filter {id : ℕ} :
    (d.wal.filter fun l => l.id ≠ id).map Log.id = (d.wal.map Log.id).filter fun i => i ≠ id := by
  rw [List.filter_map]
  rfl

theorem Ids.alterLog {id : ℕ} {f : Log → Log} {fresh ids held : List ℕ} {next : ℕ}
    {mems : ℕ → MemTable} (hf : ∀ l, (f l).id = l.id)
    (h : LowDB.Ids (d.wal.map Log.id) fresh ids held rest next mems) :
    LowDB.Ids ((d.alterLog id f).wal.map Log.id) fresh ids held rest next mems := by
  rwa [map_id_alterLog hf]

theorem active_notMem_frozen (h : p.Ids d rest) :
    p.state.memTable ∉ p.state.frozen ++ p.flush.held := by
  have hn := (List.nodup_append.mp h.nodup).2.1
  have hn : p.state.memTable ∉ p.state.frozen ++ (p.flush.held ++ rest) :=
    (List.nodup_cons.mp hn).1
  simp only [List.mem_append, not_or] at hn ⊢
  exact ⟨hn.1, hn.2.1⟩

/-- The frozen memtables without the last one. -/
theorem filter_frozen {fs : List ℕ} {mt : ℕ} (h : p.Ids d rest) (hf : p.state.frozen = fs ++ [mt]) :
    p.state.frozen.filter (fun id => id ≠ mt) = fs := by
  have hn := (List.nodup_append.mp h.nodup).2.1
  have hn := (List.nodup_cons.mp hn).2
  have hn := (List.nodup_append.mp hn).1
  rw [hf] at hn ⊢
  have hmt : mt ∉ fs := fun hm => (List.nodup_append.mp hn).2.2 mt hm mt (by simp) rfl
  rw [List.filter_append, LowDB.Ids.filter_eq hmt]
  simp

theorem newLogs_of_appendTs {ts : ℕ} (h : p.appendTs = some ts) : p.commit.newLogs = [] := by
  unfold appendTs at h
  split at h
  case h_1 c ts hc => rw [hc]; rfl
  case h_2 c ts hc => rw [hc]; rfl
  case h_3 c ts n hc => rw [hc]; rfl
  case h_4 => cases h

variable [Crc32]

theorem ids_step (h₀ : p.Ids d rest) (hfl : p.Flush) (hs : Step d p a o d' p') :
    p'.Ids d' (p.restAfter rest a) := by
  have h := h₀
  unfold Ids at h
  cases hs with
  | set hc => rw [hc] at h; exact h
  | commitEmpty => exact h
  | conflict => exact h
  | commit _ _ _ _ _ hc => rw [hc] at h; exact h
  | stamp hc => rw [hc] at h; exact h
  | appendBegin hc => rw [hc] at h; exact .alterLog (fun _ => rfl) h
  | appendBatch hc => rw [hc] at h; exact .alterLog (fun _ => rfl) h
  | refuse hc => rw [hc] at h; exact .alterLog (fun _ => rfl) h
  | appendCommit hc => rw [hc] at h; exact .alterLog (fun _ => rfl) h
  | appendFails ht =>
      rw [newLogs_of_appendTs ht] at h
      exact .alterLog (fun _ => rfl) h
  | put hc => rw [hc] at h; exact h.put List.mem_cons_self
  | record hc => rw [hc] at h; exact h
  | publish hc => rw [hc] at h; exact h
  | watermark hc => rw [hc] at h; exact h
  | prune hc => rw [hc] at h; exact h
  | finish hc => rw [hc] at h; exact h
  | freezeEmpty => exact h
  | freeze hc => rw [hc] at h; exact h
  | @createLog oc hc =>
      have hnew : p.commit.newLogs = [] := by
        cases oc with
        | none => rw [hc]; rfl
        | some c => rw [hc]; rfl
      rw [hnew] at h
      have h := h.create
      unfold Ids Dir.addLog
      rwa [List.map_append]
  | createLogFails hc => rw [hc] at h; exact h.skip
  | freezeFails hc => rw [hc] at h; exact h.skip
  | swap hc => rw [hc] at h; exact h.swap
  | pick hf => rw [hf] at h; exact h
  | writeTable hf => rw [hf] at h; exact h
  | writeNothing hf => rw [hf] at h; exact h
  | writeRefused hf => rw [hf] at h; exact h
  | writeTableFails hf => rw [hf] at h; exact h
  | install hf => rw [hf] at h; exact h
  | retire hf =>
      unfold Flush at hfl
      rw [hf] at hfl h
      obtain ⟨⟨fs, hfs⟩, _⟩ := hfl
      have hids : p.state.ids = p.state.memTable :: (fs ++ [_]) := congrArg _ hfs
      rw [hids] at h
      unfold Ids State.ids
      rw [filter_frozen h₀ hfs]
      exact h.retire
  | removeLog hf =>
      rw [hf] at h
      unfold Ids
      rw [map_id_filter]
      exact h.remove
  | removeLogFails => exact h.leave
  | snapshot => exact h
  | transaction => exact h
  | get => exact h
  | capture => exact h
  | write => exact h
  | searchBuffer => exact h
  | searchAbsent => exact h
  | searchMems => exact h
  | searchTables => exact h
  | drop => exact h
  | cancel => exact h

theorem phase_step (h : p.Phase d) (hc : p.Conflicts)
    (hP : ∀ w b, a = .appendFails w b → p.commit.isLogged = false) (hs : Step d p a o d' p') :
    p'.Phase d' := by
  unfold Phase at h
  cases hs with
  | set hc => rw [hc] at h; exact h.lock rfl rfl fun _ h => nomatch h
  | commitEmpty => exact h
  | conflict => exact h
  | commit _ _ _ _ _ hc => rw [hc] at h; exact h.lock rfl rfl fun _ h => nomatch h
  | stamp hc hlt =>
      rw [hc] at h
      exact ⟨h.active, h.hist, fun ts hts => Option.some_inj.mp hts ▸ hlt⟩
  | appendBegin hc => rw [hc] at h; exact h.lock rfl rfl fun _ h => h
  | appendBatch hc => rw [hc] at h; exact h.lock rfl rfl fun _ h => h
  | refuse hc => rw [hc] at h; exact h.lock rfl rfl fun _ h => nomatch h
  | appendCommit hc => rw [hc] at h; exact h.appendCommit
  | appendFails ht =>
      have hl := hP _ _ rfl
      unfold appendTs at ht
      split at ht
      case h_1 hc => rw [hc] at h; exact h.lock rfl rfl fun _ h => nomatch h
      case h_2 hc => rw [hc] at h; exact h.lock rfl rfl fun _ h => nomatch h
      case h_3 hc => rw [hc] at hl; cases hl
      case h_4 => cases ht
  | put hl he =>
      unfold Conflicts at hc
      rw [hl] at h hc
      show LowDB.Phase d.hist _ (Function.update p.mems p.state.memTable _ _).entries _
      rw [Function.update_self]
      exact h.put (MemTable.sorted _) (hc.openTs _ rfl).1 he
  | record hc => rw [hc] at h; exact h.lock rfl rfl fun _ h => h
  | publish hl =>
      unfold Conflicts at hc
      rw [hl] at h hc
      exact h.publish (hc.openTs _ rfl).1
  | watermark hc => rw [hc] at h; exact h.lock rfl rfl fun _ h => nomatch h
  | prune hc => rw [hc] at h; exact h.lock rfl rfl fun _ h => nomatch h
  | finish hc => rw [hc] at h; exact h.lock rfl rfl fun _ h => nomatch h
  | freezeEmpty => exact h
  | freeze hc => rw [hc] at h; exact h.lock rfl rfl fun _ h => nomatch h
  | @createLog oc hc =>
      cases oc with
      | none => rw [hc] at h; exact h.lock rfl rfl fun _ h => nomatch h
      | some c => rw [hc] at h; exact h.lock rfl rfl fun _ h => nomatch h
  | createLogFails hc => rw [hc] at h; exact h.lock rfl rfl fun _ h => nomatch h
  | freezeFails hc => rw [hc] at h; exact h.lock rfl rfl fun _ h => nomatch h
  | swap hc =>
      rw [hc] at h
      show LowDB.Phase d.hist _ (Function.update p.mems _ (.new _) _).entries _
      rw [Function.update_self]
      exact h.swap rfl
  | pick => exact h
  | writeTable => exact h
  | writeNothing => exact h
  | writeRefused => exact h
  | writeTableFails => exact h
  | install => exact h
  | retire => exact h
  | removeLog => exact h
  | removeLogFails => exact h
  | snapshot => exact h
  | transaction => exact h
  | get => exact h
  | capture => exact h
  | write => exact h
  | searchBuffer => exact h
  | searchAbsent => exact h
  | searchMems => exact h
  | searchTables => exact h
  | drop => exact h
  | cancel => exact h

theorem flush_step (h : p.Flush) (hi : p.Ids d rest) (hs : Step d p a o d' p') : p'.Flush := by
  have hput : ∀ {t : MemTable}, LowDB.Flush p.flush p.state.frozen
      (Function.update p.mems p.state.memTable t) p.storage.tables := by
    refine h.congr fun id hid => Function.update_of_ne ?_ _ _
    rintro rfl
    exact active_notMem_frozen hi hid
  cases hs with
  | put => exact hput
  | @swap _ new hc =>
      unfold Ids at hi
      rw [hc] at hi
      refine (LowDB.Flush.congr h fun id hid => Function.update_of_ne ?_ _ _).cons _
      rintro rfl
      have hn : id ∉ p.state.ids ++ (p.flush.held ++ rest) := (List.nodup_cons.mp hi.nodup).1
      refine hn (List.mem_append.mpr ?_)
      cases List.mem_append.mp hid with
      | inl hid => exact .inl (List.mem_cons_of_mem _ hid)
      | inr hid => exact .inr (List.mem_append_left _ hid)
  | pick hf hm =>
      obtain ⟨fs, hfs⟩ := List.getLast?_eq_some_iff.mp hm
      exact ⟨fs, hfs⟩
  | writeTable hf hw =>
      unfold Flush at h
      rw [hf] at h
      exact ⟨h, rfl⟩
  | writeNothing hf hw =>
      unfold Flush at h
      rw [hf] at h
      exact ⟨h, .inl (writeL0_none hw)⟩
  | writeRefused => trivial
  | writeTableFails => trivial
  | install hf =>
      unfold Flush at h
      rw [hf] at h
      exact ⟨h.1, .inr ⟨_, _, DiskStorage.tables_install _ _, h.2⟩⟩
  | retire hf =>
      unfold Flush at h
      rw [hf] at h
      exact h.2
  | removeLog => trivial
  | removeLogFails => trivial
  | _ => exact h

end Process

end LowDB
