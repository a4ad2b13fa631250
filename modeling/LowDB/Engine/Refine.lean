import LowDB.Engine.Open
import LowDB.Lib.Snapshots

/-! # The process as a layered store

`Process.store` reads a process as a `Layered.Store`: its memtables and tables as layers, the
published versions as the history, its readers as views.  Every action of a process is a step of that
store or leaves it as it is (`store_step`), and opening establishes the invariant of the store, so
that what the store guarantees to its readers holds of the process. -/

namespace LowDB

open Layered

/-! ### Readers as views -/

namespace Reader

/-- A memtable retired before the capture held a version of `k` that the reader should see and a
newer one. -/
def Missed (r : Reader) (k : Str) : Prop := ∃ es ∈ r.retired, Superseded (layer es) k r.readTs

instance (r : Reader) (k : Str) : Decidable (r.Missed k) := inferInstanceAs (Decidable (∃ _ ∈ _, _))

def view (r : Reader) : View Str where
  time := r.readTs
  captured := r.state.map State.ids
  asked := {k | k ∈ r.pending}
  missed := {k | r.Missed k}

theorem view_started (kind : Kind) (ts : ℕ) : (started kind ts).view = ⟨ts, none, ∅, ∅⟩ := by
  unfold view started Missed
  simp

theorem view_miss (es : List Entry) (r : Reader) :
    (r.miss es).view = r.view.miss (layer es) := by
  unfold miss
  split
  case h_1 hs =>
    unfold view View.miss Missed
    simp only [hs, View.mk.injEq, true_and]
    ext k
    simp [or_comm]
  case h_2 hs =>
    unfold view View.miss
    simp [hs]

end Reader

/-- The views of the readers, by handle. -/
def viewsOf (rs : List (Option Reader)) (i : ℕ) : Option (View Str) := rs[i]?.join.map Reader.view

section views
variable {rs : List (Option Reader)} {i : ℕ} {r : Reader} {o : Option Reader}

theorem viewsOf_set (h : rs[i]? = some (some r)) :
    viewsOf (rs.set i o) = Function.update (viewsOf rs) i (o.map Reader.view) := by
  have hi := (List.getElem?_eq_some_iff.mp h).1
  funext j
  unfold viewsOf
  by_cases hj : j = i
  · subst hj
    rw [Function.update_self, List.getElem?_set_self hi]
    rfl
  · rw [Function.update_of_ne hj, List.getElem?_set_ne (Ne.symm hj)]

theorem viewsOf_append (kind : Reader.Kind) (ts : ℕ) :
    viewsOf (rs ++ [some (.started kind ts)]) =
      Function.update (viewsOf rs) rs.length (some ⟨ts, none, ∅, ∅⟩) := by
  funext j
  unfold viewsOf
  by_cases hj : j = rs.length
  · subst hj
    rw [Function.update_self, List.getElem?_concat_length]
    exact congrArg some (Reader.view_started _ _)
  · rw [Function.update_of_ne hj]
    by_cases hlt : j < rs.length
    · rw [List.getElem?_append_left hlt]
    · rw [List.getElem?_eq_none (by simp; omega), List.getElem?_eq_none (by omega)]

theorem viewsOf_map_miss (es : List Entry) :
    viewsOf (rs.map (Option.map (Reader.miss es))) =
      fun i => (viewsOf rs i).map (View.miss (layer es)) := by
  funext j
  unfold viewsOf
  rw [List.getElem?_map]
  cases rs[j]? with
  | none => rfl
  | some o =>
      cases o with
      | none => rfl
      | some r => exact congrArg some (Reader.view_miss es r)

theorem viewsOf_of_reader {p : Process} (h : p.reader i = some r) :
    viewsOf p.readers i = some r.view :=
  congrArg (Option.map Reader.view) h

end views

namespace Process

/-- The process as a store. -/
def store (d : Dir) (p : Process) : Store Str (Option Str) where
  hist := {x | x ∈ d.hist ∧ x.2.1 ≤ p.oracle.visible}
  visible := p.oracle.visible
  mems id := layer (p.mems id).entries
  active := p.state.memTable
  frozen := p.state.frozen
  tables := p.storage.tables.map fun t => layer t.entries
  views := viewsOf p.readers

variable {d d' : Dir} {p p' : Process} {a : Act} {o : Out} {rest : List ℕ} {i : ℕ} {r : Reader}

/-! ### The steps of readers -/

/-- A reader goes on with less to look up in the tables. -/
theorem store_forget {r' : Reader} (hr : p.reader i = some r) (ht : r'.readTs = r.readTs)
    (hs : r'.state = r.state) (hp : r'.pending ⊆ r.pending) (hm : r'.retired = r.retired) :
    Store.Step (p.store d) (store d (p.setReader i (some r'))) := by
  have hv : r'.view = { r.view with asked := {k | k ∈ r'.pending} } := by
    unfold Reader.view Reader.Missed
    rw [ht, hs, hm]
  have hset := viewsOf_set (o := some r') (getElem?_of_reader hr)
  rw [Option.map_some, hv] at hset
  unfold store setReader
  rw [hset]
  exact .forget (viewsOf_of_reader hr) fun _ hk => hp hk

theorem store_leave (hr : p.reader i = some r) :
    Store.Step (p.store d) (store d (p.setReader i none)) := by
  unfold store setReader
  rw [viewsOf_set (getElem?_of_reader hr)]
  exact .leave

theorem store_begin (kind : Reader.Kind) {o : Oracle} (ho : o.visible = p.oracle.visible) :
    Store.Step (p.store d) (store d { p with
      oracle := o
      readers := p.readers ++ [some (.started kind p.oracle.visible)] }) := by
  unfold store
  rw [ho]
  dsimp only
  rw [viewsOf_append]
  exact .begin

theorem store_capture (hr : p.reader i = some r) (hs : r.state = none) :
    Store.Step (p.store d)
      (store d (p.setReader i (some { r with state := some p.state }))) := by
  unfold store setReader
  have hc : r.view.captured = none := by
    rw [Reader.view, hs]
    rfl
  rw [viewsOf_set (getElem?_of_reader hr)]
  exact .capture (w := r.view) (viewsOf_of_reader hr) hc

/-- Memtables without an answer know nothing of the key. -/
theorem silent_of_searchMems {k : Str} {s : ℕ} {ts : List MemTable}
    (h : searchMems k s ts = .absent) : ∀ t ∈ ts, Answers (layer t.entries) k s none := by
  induction ts with
  | nil => exact fun _ h => nomatch h
  | cons t ts ih =>
      obtain ⟨o, ho, ht⟩ := t.getSnap_answers k s
      unfold searchMems at h
      split at h
      case h_1 ha =>
        rw [ha] at ht
        have hnone : o = none := Option.map_eq_none_iff.mp ht.symm
        exact List.forall_mem_cons.mpr ⟨hnone ▸ ho, ih h⟩
      case h_2 hne => exact absurd h hne

theorem store_ask {st : State} {k : Str} (hr : p.reader i = some r) (hs : r.state = some st)
    (hl : searchMems k r.readTs (p.memTables st) = .absent) :
    Store.Step (p.store d)
      (store d (p.setReader i (some { r with pending := k :: r.pending }))) := by
  have hv : Reader.view { r with pending := k :: r.pending } =
      { r.view with asked := insert k r.view.asked } := by
    unfold Reader.view
    congr 1
    ext x
    simp
  have hc : r.view.captured = some st.ids := by
    rw [Reader.view, hs]
    rfl
  have hall : ∀ id ∈ st.ids, Answers (layer (p.mems id).entries) k r.readTs none :=
    fun id hid => silent_of_searchMems hl (p.mems id) (List.mem_map_of_mem hid)
  unfold store setReader
  rw [viewsOf_set (getElem?_of_reader hr), Option.map_some, hv]
  exact .ask (w := r.view) (viewsOf_of_reader hr) hc hall

/-! ### The steps of commits and flushes -/

theorem store_put {c : Commit} {ts n : ℕ} {e : Entry} (hph : p.Phase d) (hco : p.Conflicts)
    (hc : p.commit = .logged c ts n) (he : (c.buffer.batch ts)[n]? = some e) :
    Store.Step (p.store d) (store d { p with
      mems := Function.update p.mems p.state.memTable ((p.mems p.state.memTable).put e.1 e.2)
      commit := .logged c ts (n + 1) }) := by
  unfold Conflicts at hco
  rw [hc] at hco
  have hlt := (hco.openTs ts rfl).1
  unfold Phase at hph
  rw [hc] at hph
  have hseq : e.1.seq.toNat = ts :=
    Buffer.seq_of_mem_batch (hph.ts ts rfl) (List.mem_of_getElem? he)
  refine .write (m := fun id => layer (Function.update p.mems p.state.memTable
    ((p.mems p.state.memTable).put e.1 e.2) id).entries) (fun id hid => ?_) fun k m v hm => ?_
  · have hid : id ≠ p.state.memTable := hid
    rw [Function.update_of_ne hid]
    rfl
  · have hm : m ≤ p.oracle.visible := hm
    show (k, m, v) ∈ layer (Function.update p.mems _ _ p.state.memTable).entries ↔ _
    rw [Function.update_self, MemTable.put_entries]
    constructor
    · rintro ⟨y, hy, hx⟩
      cases (mem_insertEntry (MemTable.sorted _)).mp hy with
      | inl hy => exact ⟨y, hy, hx⟩
      | inr hy =>
          obtain ⟨rfl, _⟩ := hy
          have hem : e.1.seq.toNat = m := congrArg (fun x => x.2.1) hx
          omega
    · exact fun ⟨y, hy, hx⟩ => ⟨y, subset_insertEntry _ _ hy, hx⟩

theorem store_publish {c : Commit} {ts : ℕ} {o : Oracle} {pub : List (Str × ℕ)}
    (hph : p.Phase d) (hco : p.Conflicts) (hc : p.commit = .recorded c ts) (ho : o.visible = ts) :
    Store.Step (p.store d)
      (store d { p with oracle := o, commit := .published c ts, published := pub }) := by
  unfold Conflicts at hco
  unfold Phase at hph
  rw [hc] at hco hph
  have hlt := (hco.openTs ts rfl).1
  have hts := hph.ts ts rfl
  have hnew : ∀ k n v, p.oracle.visible < n →
      ((k, n, v) ∈ d.hist ↔ (k, n, v) ∈ layer (p.mems p.state.memTable).entries) :=
    fun k n v hn => (hph.hist k n v hn).trans (hph.active k n v hn).symm
  have hle : ∀ k n v, (k, n, v) ∈ d.hist → p.oracle.visible < n → n = ts := fun k n v hv hn =>
    Buffer.time_of_layer_batch hts ((hph.hist k n v hn).mp hv)
  unfold store
  rw [ho]
  refine .publish hlt.le (?_) ?_
  · intro k n v
    show (k, n, v) ∈ d.hist ∧ n ≤ ts ↔ ((k, n, v) ∈ d.hist ∧ n ≤ p.oracle.visible) ∨
      (k, n, v) ∈ layer (p.mems p.state.memTable).entries ∧ p.oracle.visible < n
    constructor
    · rintro ⟨hv, hn⟩
      by_cases hvis : n ≤ p.oracle.visible
      · exact .inl ⟨hv, hvis⟩
      · exact .inr ⟨(hnew k n v (by omega)).mp hv, by omega⟩
    · rintro (⟨hv, hn⟩ | ⟨hv, hn⟩)
      · exact ⟨hv, hn.trans hlt.le⟩
      · have hv := (hnew k n v hn).mpr hv
        exact ⟨hv, (hle k n v hv hn).le⟩
  · rintro k n ⟨v, hv⟩
    by_cases hvis : n ≤ p.oracle.visible
    · exact hvis.trans hlt.le
    · exact (hle k n v ((hnew k n v (by omega)).mpr hv) (by omega)).le

/-- Nothing of the commit under way is in the active memtable. -/
theorem active_le (hph : p.Phase d) (hc : p.commit.applied = []) {k : Str} {n : ℕ}
    (hn : Holds (layer (p.mems p.state.memTable).entries) k n) : n ≤ p.oracle.visible := by
  obtain ⟨v, hv⟩ := hn
  by_contra hlt
  have hv := (hph.active k n v (by omega)).mp hv
  rw [hc, layer_nil] at hv
  exact hv

theorem store_swap {oc : Option (Commit × ℕ)} {id : ℕ} (hi : p.Ids d rest) (hph : p.Phase d)
    (hc : p.commit = .created oc id) :
    Store.Step (p.store d) (store d { p with
      mems := Function.update p.mems id (.new id)
      state := ⟨id, p.state.ids⟩
      walBuf := []
      commit := .free }) := by
  have hle : ∀ k n, Holds (layer (p.mems p.state.memTable).entries) k n →
      n ≤ p.oracle.visible := fun k n hn => active_le hph (by rw [hc]; rfl) hn
  unfold Ids at hi
  rw [hc] at hi
  have hempty : (p.mems id).entries = [] := hi.unused id (.inl (List.mem_singleton.mpr rfl))
  have hn : id ∉ p.state.ids ++ (p.flush.held ++ rest) := (List.nodup_cons.mp hi.nodup).1
  have hid : id ∉ p.state.ids := fun hid => hn (List.mem_append_left _ hid)
  have hmems : (fun i => layer (Function.update p.mems id (.new id) i).entries) =
      fun i => layer (p.mems i).entries := by
    funext i
    by_cases hi : i = id
    · rw [hi, Function.update_self, hempty]
      rfl
    · rw [Function.update_of_ne hi]
  have hnew : layer (p.mems id).entries = ∅ := by rw [hempty, layer_nil]
  unfold store
  rw [hmems]
  exact .freeze hid hnew hle

/-- The table of the oldest frozen memtable, in front of the others. -/
theorem Flush.install {mt : ℕ} {t : Table} (hfl : p.Flush) (hf : p.flush = .renamed mt t) :
    (∃ fs, p.state.frozen = fs ++ [mt]) ∧
      (p.storage.install t).tables.map (fun t => layer t.entries) =
        top (layer (p.mems mt).entries) :: p.storage.tables.map fun t => layer t.entries := by
  unfold Flush at hfl
  rw [hf] at hfl
  obtain ⟨hfs, ht⟩ := hfl
  refine ⟨hfs, ?_⟩
  rw [DiskStorage.tables_install, List.map_cons, ht, layer_newest (p.mems mt).sorted]

theorem store_install {mt : ℕ} {t : Table} (hfl : p.Flush) (hf : p.flush = .renamed mt t) :
    Store.Step (p.store d)
      (store d { p with storage := p.storage.install t, flush := .installed mt }) := by
  obtain ⟨⟨fs, hfs⟩, htables⟩ := hfl.install hf
  unfold store
  rw [htables]
  exact @Store.Step.install _ _ (p.store d) fs mt hfs

theorem store_retire {mt : ℕ} (hi : p.Ids d rest) (hfl : p.Flush) (hf : p.flush = .installed mt) :
    Store.Step (p.store d) (store d { p with
      state := ⟨p.state.memTable, p.state.frozen.filter fun id => id ≠ mt⟩
      flush := .retired mt
      readers := p.readers.map (Option.map (Reader.miss (p.mems mt).entries)) }) := by
  unfold Flush at hfl
  rw [hf] at hfl
  obtain ⟨⟨fs, hfs⟩, ht⟩ := hfl
  unfold store
  dsimp only
  rw [viewsOf_map_miss, filter_frozen hi hfs]
  exact .retire hfs ht.top

/-- A commit record adds versions that are not published yet. -/
theorem store_appendCommit {c : Commit} {ts : ℕ} {wal : List Log} {buf : Bytes} {l : CommitLock}
    (hph : p.Phase d) (hco : p.Conflicts)
    (hc : p.commit = .logged c ts (c.buffer.batch ts).length) :
    store { d with wal := wal, hist := d.hist ++ (c.buffer.batch ts).map Entry.version }
      { p with walBuf := buf, commit := l } = p.store d := by
  unfold Conflicts at hco
  unfold Phase at hph
  rw [hc] at hco hph
  have hlt := (hco.openTs ts rfl).1
  have hts := hph.ts ts rfl
  unfold store
  congr 1
  ext ⟨k, n, v⟩
  constructor
  · rintro ⟨hv, hn⟩
    refine ⟨(List.mem_append.mp hv).resolve_right fun hv => ?_, hn⟩
    have hnt : n = ts := Buffer.time_of_layer_batch hts (List.mem_map.mp hv)
    exact hlt.not_ge (hnt ▸ hn)
  · exact fun ⟨hv, hn⟩ => ⟨List.mem_append_left _ hv, hn⟩

/-- **Refinement**: every action is a step of the store or leaves it unchanged. -/
theorem store_step [Crc32] (h : p.Consistent d rest) (hs : Step d p a o d' p') :
    Store.Step (p.store d) (p'.store d') ∨ p'.store d' = p.store d := by
  have hforget : ∀ {i : ℕ} {r r' : Reader}, p.reader i = some r → r'.view = r.view →
      Store.Step (p.store d) (store d (p.setReader i (some r'))) := by
    intro i r r' hr hv
    unfold store setReader
    rw [viewsOf_set (getElem?_of_reader hr), Option.map_some, hv]
    exact .forget (w := r.view) (viewsOf_of_reader hr) fun _ hk => hk
  have hanswered : ∀ {i : ℕ} {r r' : Reader}, p.reader i = some r →
      Store.Step (p.store d) (store d (p.setReader i (some r'))) →
      Store.Step (p.store d) (store d (p.setReader i r'.answered)) := by
    intro i r r' hr hst
    unfold Reader.answered
    split
    · exact store_leave hr
    · exact hst
  cases hs with
  | commitEmpty hr => exact .inl (hforget hr rfl)
  | conflict hr => exact .inl (hforget hr rfl)
  | commit hr => exact .inl (hforget hr rfl)
  | appendCommit hc => exact .inr (store_appendCommit h.phase h.conflicts hc)
  | put hc he => exact .inl (store_put h.phase h.conflicts hc he)
  | publish hc => exact .inl (store_publish h.phase h.conflicts hc rfl)
  | swap hc => exact .inl (store_swap h.ids h.phase hc)
  | install hf => exact .inl (store_install h.flush hf)
  | retire hf => exact .inl (store_retire h.ids h.flush hf)
  | snapshot => exact .inl (store_begin .snapshot rfl)
  | transaction => exact .inl (store_begin (.transaction _) rfl)
  | get => exact .inl (store_begin (.get _) rfl)
  | capture hr hs => exact .inl (store_capture hr hs)
  | write hr => exact .inl (hforget hr rfl)
  | searchAbsent hr hs _ _ hl => exact .inl (store_ask hr hs hl)
  | searchMems hr => exact .inl (hanswered hr (hforget hr rfl))
  | searchTables hr =>
      exact .inl (hanswered hr (store_forget hr rfl rfl List.erase_subset rfl))
  | drop hr => exact .inl (store_leave hr)
  | cancel hr => exact .inl (store_leave hr)
  | _ => exact .inr rfl

/-- Opening establishes the invariant of the store. -/
theorem Opened.store_inv [Crc32] (h : Opened d p) (hF : Files d) :
    (p.store (d.addLog p.state.memTable)).Inv := by
  have hhist : (p.store (d.addLog p.state.memTable)).hist = d.histLayer := by
    ext ⟨k, n, v⟩
    exact ⟨fun hv => hv.1, fun hv => ⟨hv, h.hist_le hF ⟨v, hv⟩⟩⟩
  have hmems : ∀ id, layer (p.mems id).entries = ∅ ∨ layer (p.mems id).entries ∈ d.recovered := by
    intro id
    by_cases hid : ∃ l ∈ d.wal, l.id = id
    · obtain ⟨l, hl, rfl⟩ := hid
      rw [h.mems_frozen hF hl]
      exact .inr (List.mem_append_left _ (List.mem_map_of_mem (List.mem_reverse.mpr hl)))
    · push Not at hid
      refine .inl ?_
      rw [h.mems, heapOf_new fun l hl => hid l (List.mem_reverse.mp hl), MemTable.new_entries,
        layer_nil]
  have hcurrent : (p.store (d.addLog p.state.memTable)).layersOf
      (p.store (d.addLog p.state.memTable)).current = ∅ :: d.recovered := h.layers_current hF
  exact {
    hist_le := fun k n ⟨v, hv⟩ => hv.2
    mem := fun id k n v hv _ => by
      rw [hhist]
      cases hmems id with
      | inl he => exact (he ▸ hv : (k, n, v) ∈ (∅ : Layer Str (Option Str))).elim
      | inr hm => exact hF.sub _ hm hv
    pending := fun id k n hn hlt => by
      cases hmems id with
      | inl he =>
          obtain ⟨v, hv⟩ := hn
          exact (he ▸ hv : (k, n, v) ∈ (∅ : Layer Str (Option Str))).elim
      | inr hm => exact absurd (h.recovered_le hm hn) hlt.not_ge
    table := fun T hT => by
      rw [hhist]
      have hT : T ∈ p.storage.tables.map (fun t => layer t.entries) := hT
      rw [h.layers_tables] at hT
      exact hF.sub _ (List.mem_append_right _ hT)
    active := fun hm => by
      have hm : p.state.memTable ∈ p.state.frozen := hm
      rw [h.frozen] at hm
      obtain ⟨l, hl, he⟩ := List.mem_map.mp hm
      exact (h.new l (List.mem_reverse.mp hl)).ne he
    reads := fun k => by
      rw [hcurrent, hhist]
      exact hF.reads.cons_empty k _ fun n hn => h.hist_le hF hn
    view := fun i w hw => by
      have hnone : (p.store (d.addLog p.state.memTable)).views i = none := by
        unfold store viewsOf
        rw [h.readers]
        rfl
      cases hnone.symm.trans hw }

end Process

end LowDB
