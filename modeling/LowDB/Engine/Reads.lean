import Mathlib.Data.List.MinMax
import LowDB.Engine.Refine

/-! # Reads

What a lookup of a process returns, against the committed versions.  `Process.Serves` adds to the
invariant of the store that the open tables answer like their entries; it holds in every run that
opens only tables whose index has less than 2^32 bytes.  A lookup by a reader that has not missed the
key returns the committed value at the reader's timestamp (`Serves.got`), and that value does not
change while the process runs (`Later`). -/

namespace LowDB

open Layered

/-! ### Open tables -/

section tables
variable [Crc32]

/-- The table answers lookups like the list of its entries. -/
def Table.Exact (t : Table) : Prop :=
  Sorted t.entries ∧ ∃ b : Blocks, b.entries = t.entries ∧ t.sst = b.table

theorem TableFile.Stored.open_eq {f : TableFile} (h : f.Stored) (hfit : f.IndexFits) :
    ∃ t, openTable f = .ok t ∧ t.Exact := by
  obtain ⟨hs, b, he, hb, ht⟩ := h
  unfold TableFile.IndexFits at hfit
  rw [ht] at hfit
  refine ⟨⟨b.table, f.entries⟩, ?_, hs, b, he, rfl⟩
  unfold openTable
  rw [← hb, b.read_eq hfit]
  rfl

/-- Files that can be opened are all loaded, each as it is opened. -/
theorem loadTables_exact {fs : List TableFile} (hf : ∀ f ∈ fs, f.Stored ∧ f.IndexFits) :
    ∃ r, DiskStorage.loadTables fs = .ok r ∧ ∀ t ∈ r.2.search, t.Exact := by
  suffices hgen : ∀ acc : ℕ × Levels, (∀ t ∈ acc.2.search, t.Exact) →
      ∃ r, fs.foldlM (fun acc f => do
        let table ← openTable f
        return (max acc.1 table.sst.tableMeta.footer.largestSeq,
          Levels.alter f.level (fun ts => ts ++ [table]) acc.2)) acc = Except.ok r ∧
        ∀ t ∈ r.2.search, t.Exact from hgen (0, []) fun _ h => nomatch h
  induction fs with
  | nil => exact fun acc h => ⟨acc, rfl, h⟩
  | cons f fs ih =>
      intro acc h
      obtain ⟨hst, hfit⟩ := hf f List.mem_cons_self
      obtain ⟨t, ht, hex⟩ := hst.open_eq hfit
      rw [List.foldlM_cons, ht]
      apply ih (fun x hx => hf x (List.mem_cons_of_mem _ hx)) _
      intro t' ht'
      cases Levels.mem_search_alter.mp ht' with
      | inl h' => exact h t' h'
      | inr h' => exact h' ▸ hex

theorem load_exact {fs : List TableFile} (hf : ∀ f ∈ fs, f.Stored ∧ f.IndexFits) :
    ∃ ds, DiskStorage.load fs = .ok ds ∧ ∀ t ∈ ds.tables, t.Exact := by
  have hp : (sortFiles fs).Perm fs := List.perm_insertionSort _ _
  obtain ⟨r, hr, hall⟩ := loadTables_exact fun f hm => hf f (hp.subset hm)
  refine ⟨⟨(fs.map TableFile.id).foldr max 0 + 1, r.1, r.2⟩, ?_, hall⟩
  unfold DiskStorage.load
  rw [hr]
  rfl

end tables

/-! ### What lookups find -/

theorem identify_value (l : Lookup) : identify l.value = l.text.join := by
  cases l <;> rfl

theorem searchMems_answers (ts : List MemTable) (k : Str) (s : ℕ) :
    ∃ o, Search (ts.map fun t => layer t.entries) k s o ∧
      (searchMems k s ts).text = o.map Prod.snd := by
  induction ts with
  | nil => exact ⟨none, rfl, rfl⟩
  | cons t ts ih =>
      obtain ⟨o, ho, ht⟩ := t.getSnap_answers k s
      unfold searchMems
      split
      case h_1 ha =>
        rw [ha] at ht
        have hnone : o = none := Option.map_eq_none_iff.mp ht.symm
        exact ih.imp fun o' h => ⟨.inr ⟨hnone ▸ ho, h.1⟩, h.2⟩
      case h_2 hne =>
        cases o with
        | none => exact absurd (Lookup.text_eq_none.mp ht) hne
        | some x => exact ⟨some x, .inl ⟨x, rfl, ho⟩, ht⟩

theorem searchTables_answers [Crc32] {ts : List Table} (h : ∀ t ∈ ts, t.Exact) (k : Str) (s : ℕ) :
    ∃ l o, DiskStorage.searchTables k s ts = .ok l ∧
      Search (ts.map fun t => layer t.entries) k s o ∧ l.text = o.map Prod.snd := by
  induction ts with
  | nil => exact ⟨.absent, none, rfl, rfl, rfl⟩
  | cons t ts ih =>
      obtain ⟨hs, b, he, ht⟩ := h t List.mem_cons_self
      have hget : t.sst.get k s = .ok (lookupIn (t.entries.map Entry.stored) k s) := by
        rw [ht, ← he]
        exact b.get_eq (he ▸ hs.pairwise_le) k s
      obtain ⟨o, ho, hl⟩ := lookupIn_answers hs.map_stored k s
      rw [layer_map_stored] at ho
      unfold DiskStorage.searchTables
      rw [hget]
      generalize lookupIn (t.entries.map Entry.stored) k s = l at hl
      cases o with
      | none =>
          obtain ⟨l', o, hr, hs, hv⟩ := ih fun t ht => h t (List.mem_cons_of_mem _ ht)
          refine ⟨l', o, ?_, .inr ⟨ho, hs⟩, hv⟩
          rw [Lookup.text_eq_none.mp hl]
          exact hr
      | some x =>
          refine ⟨l, some x, ?_, .inl ⟨x, rfl, ho⟩, hl⟩
          cases l with
          | absent => cases hl
          | found v => rfl
          | deleted => rfl

/-! ### Committed values -/

/-- The text of the newest committed version of `k` up to the timestamp `s`. -/
def Dir.valueAt (d : Dir) (k : Str) (s : ℕ) : Option Str :=
  ((d.hist.filter fun x => x.1 = k ∧ x.2.1 ≤ s).argmax fun x => x.2.1).bind fun x => x.2.2

theorem Dir.valueAt_of_answers {d : Dir} {k : Str} {s : ℕ} {o : Option (ℕ × Option Str)}
    (hf : Functional d.histLayer) (h : Answers d.histLayer k s o) :
    d.valueAt k s = o.bind Prod.snd := by
  unfold valueAt
  have hmem : ∀ {x : Version}, x ∈ d.hist.filter (fun x => x.1 = k ∧ x.2.1 ≤ s) ↔
      x ∈ d.hist ∧ x.1 = k ∧ x.2.1 ≤ s := by simp
  cases o with
  | none =>
      have hnil : d.hist.filter (fun x => x.1 = k ∧ x.2.1 ≤ s) = [] := by
        apply List.eq_nil_iff_forall_not_mem.mpr
        intro x hx
        obtain ⟨hv, rfl, hle⟩ := hmem.mp hx
        exact (h x.2.1 ⟨x.2.2, hv⟩).not_ge hle
      rw [hnil]
      rfl
  | some x =>
      obtain ⟨n, v⟩ := x
      obtain ⟨hv, hn, hle, hmax⟩ := h
      have hx : (k, n, v) ∈ d.hist.filter (fun x => x.1 = k ∧ x.2.1 ≤ s) :=
        hmem.mpr ⟨hv, rfl, hle⟩
      cases hy : (d.hist.filter fun x => x.1 = k ∧ x.2.1 ≤ s).argmax fun x => x.2.1 with
      | none => rw [List.argmax_eq_none.mp hy] at hx; cases hx
      | some y =>
          obtain ⟨yk, m, w⟩ := y
          obtain ⟨hw, hk, hm⟩ := hmem.mp (List.argmax_mem hy)
          have hk : yk = k := hk
          subst hk
          have hnm : n ≤ m := List.le_of_mem_argmax hx hy
          obtain rfl : n = m := hnm.antisymm (hmax m ⟨w, hw⟩ hm)
          exact (hf yk n w v hw hv : w = v)

/-! ### The invariant -/

/-- `r'` is a later state of the reader `r`. -/
structure Reader.Continues (r r' : Reader) : Prop where
  kind : r'.kind = r.kind
  readTs : r'.readTs = r.readTs
  buffer : (∀ tx, r.kind ≠ .transaction tx) → r.buffer = .empty → r'.buffer = .empty

namespace Reader.Continues

variable {r r' r₁ : Reader}

theorem refl (r : Reader) : Continues r r := ⟨rfl, rfl, fun _ hb => hb⟩

theorem trans (h : Continues r r') (h' : Continues r' r₁) : Continues r r₁ where
  kind := h'.kind.trans h.kind
  readTs := h'.readTs.trans h.readTs
  buffer hk hb := h'.buffer (h.kind ▸ hk) (h.buffer hk hb)

theorem miss (es : List Entry) (r : Reader) : Continues r (r.miss es) := by
  unfold Reader.miss
  split <;> exact ⟨rfl, rfl, fun _ hb => hb⟩

theorem answered (h : Continues r r') : ∀ x ∈ r'.answered, Continues r x := by
  intro x hx
  unfold Reader.answered at hx
  split at hx
  case h_1 => cases hx
  case h_2 =>
    cases hx
    exact h

end Reader.Continues

namespace Process

variable {d d' : Dir} {p p' : Process} {a : Act} {o : Out} {rest : List ℕ} {i : ℕ} {r : Reader}
  {k : Str}

/-- What lookups of a process rest on. -/
structure Serves [Crc32] (d : Dir) (p : Process) : Prop where
  store : (p.store d).Inv
  tables : ∀ t ∈ p.storage.tables, t.Exact
  renamed : ∀ mt t, p.flush = .renamed mt t → t.Exact
  hist : Functional d.histLayer
  buffers : ∀ i r, p.reader i = some r → (∀ tx, r.kind ≠ .transaction tx) → r.buffer = .empty

theorem reader_setReader {j : ℕ} {x : Option Reader} {r' : Reader}
    (h : (p.setReader i x).reader j = some r') : p.reader j = some r' ∨ j = i ∧ x = some r' := by
  unfold reader setReader at h
  by_cases hj : j = i
  · subst hj
    by_cases hlt : j < p.readers.length
    · rw [List.getElem?_set_self hlt] at h
      exact .inr ⟨rfl, h⟩
    · rw [List.getElem?_eq_none (by simpa using hlt)] at h
      cases h
  · rw [List.getElem?_set_ne (Ne.symm hj)] at h
    exact .inl h

theorem reader_append {j : ℕ} {r r' : Reader}
    (h : (p.readers ++ [some r])[j]?.join = some r') :
    p.reader j = some r' ∨ j = p.readers.length ∧ r = r' := by
  by_cases hlt : j < p.readers.length
  · rw [List.getElem?_append_left hlt] at h
    exact .inl h
  · rw [List.getElem?_append_right (by omega)] at h
    by_cases hj : j - p.readers.length = 0
    · rw [hj] at h
      cases h
      exact .inr ⟨by omega, rfl⟩
    · rw [List.getElem?_eq_none (by simp; omega)] at h
      cases h

theorem reader_map_miss {j : ℕ} {es : List Entry} {r' : Reader}
    (h : (p.readers.map (Option.map (Reader.miss es)))[j]?.join = some r') :
    ∃ r, p.reader j = some r ∧ r' = r.miss es := by
  unfold reader
  rw [List.getElem?_map] at h
  cases hj : p.readers[j]? with
  | none => rw [hj] at h; cases h
  | some x =>
      rw [hj] at h
      cases x with
      | none => cases h
      | some r =>
          cases h
          exact ⟨r, rfl, rfl⟩

/-- After an action a handle is the one it was before, or new. -/
theorem reader_step [Crc32] (hs : Step d p a o d' p') {r' : Reader} (h : p'.reader i = some r') :
    (∃ r, p.reader i = some r ∧ r.Continues r') ∨ p.readers.length ≤ i ∧ r'.buffer = .empty := by
  have hset : ∀ {j : ℕ} {r : Reader} {x : Option Reader}, p.reader j = some r →
      (p.setReader j x).reader i = some r' → (∀ r₁ ∈ x, r.Continues r₁) →
      ∃ r, p.reader i = some r ∧ r.Continues r' := by
    intro j r x hr h hx
    cases reader_setReader h with
    | inl h => exact ⟨r', h, .refl r'⟩
    | inr h => exact ⟨r, h.1 ▸ hr, hx r' h.2⟩
  have hbegin : ∀ {kind : Reader.Kind} {ts : ℕ},
      (p.readers ++ [some (.started kind ts)])[i]?.join = some r' →
      (∃ r, p.reader i = some r ∧ r.Continues r') ∨ p.readers.length ≤ i ∧ r'.buffer = .empty := by
    intro kind ts h
    cases reader_append h with
    | inl h => exact .inl ⟨r', h, .refl r'⟩
    | inr h => exact .inr ⟨h.1.ge, h.2 ▸ rfl⟩
  cases hs with
  | commitEmpty hr =>
      exact .inl (hset hr h fun _ h => Option.some_inj.mp h ▸ ⟨rfl, rfl, fun _ _ => rfl⟩)
  | conflict hr =>
      exact .inl (hset hr h fun _ h => Option.some_inj.mp h ▸ ⟨rfl, rfl, fun _ _ => rfl⟩)
  | commit hr =>
      exact .inl (hset hr h fun _ h => Option.some_inj.mp h ▸ ⟨rfl, rfl, fun _ _ => rfl⟩)
  | retire =>
      obtain ⟨r, hr, rfl⟩ := reader_map_miss h
      exact .inl ⟨r, hr, .miss _ r⟩
  | snapshot => exact hbegin h
  | transaction => exact hbegin h
  | get => exact hbegin h
  | capture hr =>
      exact .inl (hset hr h fun _ h => Option.some_inj.mp h ▸ ⟨rfl, rfl, fun _ hb => hb⟩)
  | write hr hk =>
      exact .inl (hset hr h fun _ h =>
        Option.some_inj.mp h ▸ ⟨rfl, rfl, fun hne => absurd hk (hne _)⟩)
  | searchAbsent hr =>
      exact .inl (hset hr h fun _ h => Option.some_inj.mp h ▸ ⟨rfl, rfl, fun _ hb => hb⟩)
  | searchMems hr => exact .inl (hset hr h (Reader.Continues.refl _).answered)
  | searchTables hr =>
      refine .inl (hset hr h (Reader.Continues.answered ?_))
      exact ⟨rfl, rfl, fun _ hb => hb⟩
  | drop hr => exact .inl (hset hr h fun _ h => nomatch h)
  | cancel hr => exact .inl (hset hr h fun _ h => nomatch h)
  | _ => exact .inl ⟨r', h, .refl r'⟩

/-- The committed versions stay one for a key and a timestamp. -/
theorem functional_step [Crc32] (h : Functional d.histLayer) (hc : p.Consistent d rest)
    (hs : Step d p a o d' p') : Functional d'.histLayer := by
  cases hs with
  | @appendCommit c ts hl =>
      have hph := hc.phase
      have hco := hc.conflicts
      unfold Phase at hph
      unfold Conflicts at hco
      rw [hl] at hph hco
      have hlt := (hco.openTs ts rfl).1
      have hnew : ∀ k n v, (k, n, v) ∈ layer (c.buffer.batch ts) → (∀ w, (k, n, w) ∉ d.hist) := by
        intro k n v hv w hw
        have hn := Buffer.time_of_layer_batch (hph.ts ts rfl) hv
        exact hlt.not_ge (hn ▸ hph.hist_le rfl hw)
      intro k n v w hv hw
      cases List.mem_append.mp hv with
      | inl hv =>
          cases List.mem_append.mp hw with
          | inl hw => exact h k n v w hv hw
          | inr hw => exact absurd hv (hnew k n w (List.mem_map.mp hw) v)
      | inr hv =>
          cases List.mem_append.mp hw with
          | inl hw => exact absurd hw (hnew k n v (List.mem_map.mp hv) w)
          | inr hw =>
              exact functional_layer (c.buffer.sorted_batch' ts) k n v w (List.mem_map.mp hv)
                (List.mem_map.mp hw)
  | _ => exact h

namespace Serves

variable [Crc32]

theorem step (h : p.Serves d) (hc : p.Consistent d rest) (hs : Step d p a o d' p') :
    p'.Serves d' where
  store := by
    cases store_step hc hs with
    | inl hst => exact hst.inv h.store
    | inr he => exact he ▸ h.store
  tables := by
    have ht := h.tables
    cases hs with
    | install hf =>
        intro t hm
        rw [DiskStorage.tables_install] at hm
        cases List.mem_cons.mp hm with
        | inl hm => exact hm ▸ h.renamed _ _ hf
        | inr hm => exact ht t hm
    | _ => exact ht
  renamed := by
    have hn := h.renamed
    cases hs with
    | writeTable hf hw =>
        obtain ⟨b, hb, hbytes, hm⟩ := writeL0_some hw
        intro mt t ht
        cases ht
        refine ⟨(p.mems _).sorted.newest, b, hb, ?_⟩
        rw [hbytes, hm]
        rfl
    | pick => exact fun _ _ h => nomatch h
    | writeNothing => exact fun _ _ h => nomatch h
    | writeRefused => exact fun _ _ h => nomatch h
    | writeTableFails => exact fun _ _ h => nomatch h
    | install => exact fun _ _ h => nomatch h
    | retire => exact fun _ _ h => nomatch h
    | removeLog => exact fun _ _ h => nomatch h
    | removeLogFails => exact fun _ _ h => nomatch h
    | _ => exact hn
  hist := functional_step h.hist hc hs
  buffers i r' hr' hk := by
    cases reader_step hs hr' with
    | inl hr =>
        obtain ⟨r, hr, hcont⟩ := hr
        have hk : ∀ tx, r.kind ≠ .transaction tx := hcont.kind ▸ hk
        exact hcont.buffer hk (h.buffers i r hr hk)
    | inr hr => exact hr.2

end Serves

theorem Opened.serves [Crc32] (h : Opened d p) (hF : Files d) (hd : Functional d.histLayer)
    (hfit : ∀ f ∈ d.ss, f.IndexFits)
    (ho : openDb (d.wal.map Log.file) d.ss = .ok p) : p.Serves (d.addLog p.state.memTable) where
  store := h.store_inv hF
  tables := by
    obtain ⟨_, storage, _, hl, rfl⟩ := openDb_eq ho
    obtain ⟨ds, hds, hall⟩ := load_exact fun f hf => ⟨hF.stored f hf, hfit f hf⟩
    cases hds.symm.trans hl
    exact hall
  renamed mt t hf := nomatch h.flush.symm.trans hf
  hist := hd
  buffers i r hr := by
    unfold reader at hr
    rw [h.readers] at hr
    cases hr

end Process

/-- In a run that opens only tables whose index fits, lookups are served in every state. -/
theorem Run.serves [Crc32] {P : Sys → Act → Prop} {s : Sys}
    (hcons : ∀ s, Reach P s →
      s.Holds (fun d => d.refused = false → Files d) fun d p => ∃ rest, p.Consistent d rest)
    (hopen : ∀ d, P ⟨d, none⟩ .open → d.refused = false ∧ ∀ f ∈ d.ss, f.IndexFits)
    (h : Reach P s) : s.Holds (fun d => Functional d.histLayer) fun d p => p.Serves d := by
  refine h.holds (fun d p hr ha hd ho => ?_) (fun d p hsv => hsv.hist)
    (fun d p a o d' p' hr ha hsv hs => ?_) fun _ _ _ _ h => nomatch h
  · obtain ⟨href, hfit⟩ := hopen d ha
    have hF := hcons _ hr href
    exact (Process.opened hF ho).serves hF hd hfit ho
  · obtain ⟨rest, hc⟩ := hcons _ hr
    exact hsv.step hc hs

/-! ### What a lookup returns -/

namespace Process

variable {d d' : Dir} {p p' : Process} {a : Act} {i : ℕ} {r : Reader} {k : Str}

namespace Serves

variable [Crc32]

theorem functional_tables (h : p.Serves d) : ∀ T ∈ (p.store d).tables, Functional T := by
  intro T hT
  obtain ⟨t, ht, rfl⟩ := List.mem_map.mp hT
  exact functional_layer (h.tables t ht).1

theorem readTs_le (h : p.Serves d) (hr : p.reader i = some r) : r.readTs ≤ p.oracle.visible :=
  (h.store.view i _ (viewsOf_of_reader hr)).le

/-- Up to a reader's timestamp the published versions are the committed ones. -/
theorem answers (h : p.Serves d) (hr : p.reader i = some r) {o : Option (ℕ × Option Str)}
    (ha : Answers (p.store d).hist k r.readTs o) : Answers d.histLayer k r.readTs o := by
  apply ha.congr
  intro n v hn
  exact ⟨fun hv => hv.1, fun hv => ⟨hv, hn.trans (h.readTs_le hr)⟩⟩

/-- A lookup returns a committed version or none, and the one it is to return unless the reader has
missed the key. -/
theorem got (h : p.Serves d) (hr : p.reader i = some r)
    (ha : a = .search i k ∧ r.buffer.get k = none ∨ a = .searchTables i k)
    {res : DbResult (Option Str)} (hs : Step d p a (.got res) d' p') :
    ∃ v o, res = .ok v ∧ identify v = o.bind Prod.snd ∧ (∀ x ∈ o, (k, x) ∈ d.histLayer) ∧
      (¬ r.Missed k → Answers d.histLayer k r.readTs o) := by
  have hw := viewsOf_of_reader hr
  have hmems : ∀ id, Functional ((p.store d).mems id) := fun id =>
    functional_layer (p.mems id).sorted
  have hfound : ∀ {ids : List ℕ} {o : Option (ℕ × Option Str)},
      Search ((p.store d).layersOf ids) k r.readTs o → ∀ x ∈ o, (k, x) ∈ d.histLayer := by
    rintro ids o hso ⟨n, v⟩ hx
    cases hx
    exact (h.store.mem_hist hw ids hso).1
  cases ha with
  | inl ha =>
      obtain ⟨ha, hb⟩ := ha
      subst ha
      cases hs with
      | searchBuffer hr' _ _ hb' =>
          cases hr.symm.trans hr'
          cases hb.symm.trans hb'
      | @searchMems _ _ st _ l hr' hst _ _ hl hne =>
          cases hr.symm.trans hr'
          obtain ⟨o, hso, ht⟩ := searchMems_answers (p.memTables st) k r.readTs
          have hso : Search (st.ids.map (p.store d).mems) k r.readTs o := by
            unfold memTables at hso
            rwa [List.map_map] at hso
          rw [hl] at ht
          have ho : o ≠ none := by
            rintro rfl
            exact hne (Lookup.text_eq_none.mp ht)
          have hall : Search ((p.store d).layersOf st.ids) k r.readTs o :=
            search_append_iff.mpr (.inl ⟨ho, hso⟩)
          refine ⟨_, o, rfl, ?_, hfound hall, ?_⟩
          · rw [identify_value, ht]
            cases o <;> rfl
          · intro hm
            have hc : r.view.captured = some st.ids := by
              rw [Reader.view, hst]
              rfl
            exact h.answers hr (h.store.answers_mems hmems h.functional_tables hw hc hm ho hso)
  | inr ha =>
      subst ha
      cases hs with
      | searchTables hr' hk =>
          cases hr.symm.trans hr'
          obtain ⟨l, o, hl, hso, ht⟩ := searchTables_answers h.tables k r.readTs
          have hl : p.storage.getSnap k r.readTs = .ok l := hl
          obtain ⟨ids, hc, hsilent⟩ := (h.store.view i _ hw).asked k hk
          have hall : ∀ L ∈ ids.map (p.store d).mems, Answers L k r.readTs none := by
            intro L hL
            obtain ⟨id, hid, rfl⟩ := List.mem_map.mp hL
            exact hsilent id hid
          refine ⟨l.value, o, by rw [hl]; rfl, ?_,
            hfound ((search_append_of_silent hall).mpr hso), fun hm => ?_⟩
          · rw [identify_value, ht]
            cases o <;> rfl
          · exact h.answers hr (h.store.answers_tables hmems h.functional_tables hw hk hm hso)

end Serves

/-! ### Lookups that nothing interrupts -/

section current
variable [Crc32]

/-- `State::get_snap`. -/
def getSnap (p : Process) (st : State) (key : Str) (seq : ℕ) : DbResult (Option Str) :=
  match searchMems key seq (p.memTables st) with
  | .absent => (p.storage.getSnap key seq).map Lookup.value
  | lookup => .ok lookup.value

/-- `DB::get`, when no other task runs in between. -/
def dbGet (p : Process) (key : Str) : DbResult (Option Str) :=
  p.getSnap p.state key p.oracle.visible

theorem getSnap_of_absent {st : State} {s : ℕ}
    (h : searchMems k s (p.memTables st) = .absent) :
    p.getSnap st k s = (p.storage.getSnap k s).map Lookup.value := by
  unfold getSnap
  rw [h]

theorem getSnap_of_ne {st : State} {s : ℕ} (h : searchMems k s (p.memTables st) ≠ .absent) :
    p.getSnap st k s = .ok (searchMems k s (p.memTables st)).value := by
  unfold getSnap
  split
  case h_1 ha => exact absurd ha h
  case h_2 => rfl

/-- With a new handle, or one already dropped. -/
def withReader (p : Process) (x : Option Reader) : Process := { p with readers := p.readers ++ [x] }

/-- The reader of a call of `DB::get` that has captured the state. -/
def asking (p : Process) (k : Str) (pending : List Str) : Reader :=
  { Reader.started (.get k) p.oracle.visible with state := some p.state, pending := pending }

omit [Crc32] in
@[simp] theorem reader_withReader (p : Process) (x : Option Reader) :
    (p.withReader x).reader p.readers.length = x := by
  unfold reader withReader
  simp

omit [Crc32] in
@[simp] theorem setReader_withReader (p : Process) (x y : Option Reader) :
    (p.withReader x).setReader p.readers.length y = p.withReader y := by
  unfold setReader withReader
  simp

theorem step_get : Step d p (.get k) .nothing d
    (p.withReader (some (.started (.get k) p.oracle.visible))) := .get

theorem step_capture : Step d (p.withReader (some (.started (.get k) p.oracle.visible)))
    (.capture p.readers.length) .nothing d (p.withReader (some (p.asking k []))) := by
  have h := Step.capture (d := d) (p.reader_withReader (some (.started (.get k) p.oracle.visible))) rfl
  rwa [setReader_withReader] at h

theorem step_search_absent
    (h : searchMems k p.oracle.visible (p.memTables p.state) = .absent) :
    Step d (p.withReader (some (p.asking k []))) (.search p.readers.length k) .nothing d
      (p.withReader (some (p.asking k [k]))) := by
  have hs := Step.searchAbsent (d := d) (p.reader_withReader (some (p.asking k []))) rfl
    (decide_eq_true rfl) rfl h
  rwa [setReader_withReader] at hs

/-- The steps of `DB::get`, one after another, return what `dbGet` does: the lookup in the memtables
does if it finds the key there. -/
theorem step_search (h : searchMems k p.oracle.visible (p.memTables p.state) ≠ .absent) :
    Step d (p.withReader (some (p.asking k []))) (.search p.readers.length k) (.got (p.dbGet k)) d
      (p.withReader none) := by
  have hs := Step.searchMems (d := d) (p.reader_withReader (some (p.asking k []))) rfl
    (decide_eq_true rfl) rfl rfl h
  rw [setReader_withReader] at hs
  unfold dbGet
  rw [getSnap_of_ne h]
  exact hs

/-- Otherwise the lookup in the tables does. -/
theorem step_searchTables (h : searchMems k p.oracle.visible (p.memTables p.state) = .absent) :
    Step d (p.withReader (some (p.asking k [k]))) (.searchTables p.readers.length k)
      (.got (p.dbGet k)) d (p.withReader none) := by
  have hs := Step.searchTables (d := d) (p.reader_withReader (some (p.asking k [k])))
    (List.mem_singleton_self k)
  rw [setReader_withReader] at hs
  unfold dbGet
  rw [getSnap_of_absent h]
  exact hs

/-- A lookup in the current state at the visible timestamp finds the newest committed version. -/
theorem Serves.dbGet_eq {rest : List ℕ} (h : p.Serves d) (hc : p.Consistent d rest) (k : Str) :
    ∃ v, p.dbGet k = .ok v ∧ identify v = d.valueAt k p.oracle.visible := by
  have next : ∀ {q q' : Process} {a : Act} {o : Out}, (∀ w b, a ≠ .appendFails w b) →
      a ≠ .removeLog → Step d q a o d q' → (q.Serves d ∧ ∃ rest, q.Consistent d rest) →
      q'.Serves d ∧ ∃ rest, q'.Consistent d rest := by
    rintro q q' a o hf hr hs ⟨hq, rest, hc⟩
    exact ⟨hq.step hc hs, _, hc.step (fun w b ha => absurd ha (hf w b)) (fun _ _ ha => absurd ha hr) hs⟩
  have hget := next (by simp) (by simp) (step_get (k := k)) ⟨h, rest, hc⟩
  have hcap := next (by simp) (by simp) step_capture hget
  -- the handle is new, and has missed nothing
  have hm : ∀ pending, ¬ (p.asking k pending).Missed k := by
    rintro pending ⟨_, hes, _⟩
    cases hes
  by_cases ha : searchMems k p.oracle.visible (p.memTables p.state) = .absent
  · have hsv := (next (by simp) (by simp) (step_search_absent ha) hcap).1
    obtain ⟨v, o, hres, hv, _, hans⟩ :=
      hsv.got (p.reader_withReader _) (.inr rfl) (step_searchTables ha)
    exact ⟨v, hres, hv.trans (Dir.valueAt_of_answers h.hist (hans (hm _))).symm⟩
  · obtain ⟨v, o, hres, hv, _, hans⟩ :=
      hcap.1.got (p.reader_withReader _) (.inl ⟨rfl, rfl⟩) (step_search ha)
    exact ⟨v, hres, hv.trans (Dir.valueAt_of_answers h.hist (hans (hm _))).symm⟩

end current

/-! ### While the process runs -/

/-- What stays as it is while a process runs: the versions published, and the handles. -/
structure Later (d : Dir) (p : Process) (d' : Dir) (p' : Process) : Prop where
  visible : p.oracle.visible ≤ p'.oracle.visible
  hist : ∀ k n v, n ≤ p.oracle.visible → ((k, n, v) ∈ d.hist ↔ (k, n, v) ∈ d'.hist)
  length : p.readers.length ≤ p'.readers.length
  reader : ∀ i r', i < p.readers.length → p'.reader i = some r' →
    ∃ r, p.reader i = some r ∧ r.Continues r'

theorem Later.refl (d : Dir) (p : Process) : Later d p d p :=
  ⟨le_rfl, fun _ _ _ _ => Iff.rfl, le_rfl, fun _ r' _ h => ⟨r', h, .refl r'⟩⟩

theorem Later.trans {d₁ : Dir} {p₁ : Process} (h : Later d p d' p') (h' : Later d' p' d₁ p₁) :
    Later d p d₁ p₁ where
  visible := h.visible.trans h'.visible
  hist k n v hn := (h.hist k n v hn).trans (h'.hist k n v (hn.trans h.visible))
  length := h.length.trans h'.length
  reader i r₁ hi hr₁ := by
    obtain ⟨r', hr', hc'⟩ := h'.reader i r₁ (hi.trans_le h.length) hr₁
    obtain ⟨r, hr, hc⟩ := h.reader i r' hi hr'
    exact ⟨r, hr, hc.trans hc'⟩

/-- What was committed up to a published timestamp stays so. -/
theorem Later.valueAt_eq {s : ℕ} (h : Later d p d' p') (hf : Functional d.histLayer)
    (hf' : Functional d'.histLayer) (hs : s ≤ p.oracle.visible) :
    d'.valueAt k s = d.valueAt k s := by
  obtain ⟨o, ho⟩ := exists_answers d.histLayer k s
  have ho' : Answers d'.histLayer k s o := ho.congr fun n v hn => h.hist k n v (hn.trans hs)
  rw [Dir.valueAt_of_answers hf ho, Dir.valueAt_of_answers hf' ho']

variable [Crc32] {o : Out} {rest : List ℕ}

theorem length_readers (hs : Step d p a o d' p') : p.readers.length ≤ p'.readers.length := by
  cases hs with
  | snapshot => simp
  | transaction => simp
  | get => simp
  | retire => simp
  | _ => simp [setReader]

theorem later_step (hc : p.Consistent d rest) (hs : Step d p a o d' p') : Later d p d' p' := by
  have hvis : p.oracle.visible ≤ p'.oracle.visible := by
    cases store_step hc hs with
    | inl hst => exact hst.visible_le
    | inr he => exact (congrArg Store.visible he).ge
  refine ⟨hvis, ?_, length_readers hs, ?_⟩
  · intro k n v hn
    have hiff : (k, n, v) ∈ (p'.store d').hist ↔ (k, n, v) ∈ (p.store d).hist := by
      cases store_step hc hs with
      | inl hst => exact hst.hist_iff hn
      | inr he => rw [he]
    constructor
    · exact fun hv => (hiff.mpr ⟨hv, hn⟩).1
    · exact fun hv => (hiff.mp ⟨hv, hn.trans hvis⟩).1
  · intro i r' hi hr'
    exact (reader_step hs hr').resolve_right fun h => h.1.not_gt hi

end Process

def Act.isCrash : Act → Bool
  | crash => true
  | _ => false

/-- The actions of a run in which the process goes on. -/
def Alive (P : Sys → Act → Prop) (s : Sys) (a : Act) : Prop := P s a ∧ a.isCrash = false

instance (P : Sys → Act → Prop) (s : Sys) (a : Act) [Decidable (P s a)] : Decidable (Alive P s a) :=
  inferInstanceAs (Decidable (_ ∧ _))

theorem Run.trans [Crc32] {P : Sys → Act → Prop} {s t u : Sys} (h : Run P s t) (h' : Run P t u) :
    Run P s u := by
  induction h' with
  | refl => exact h
  | tail _ hP hs ih => exact .tail ih hP hs

/-- What every action keeps holds along a run in which the process goes on. -/
theorem Run.along [Crc32] {P : Sys → Act → Prop} {I : Dir → Process → Prop} {s t : Sys}
    {p : Process} (halive : ∀ s a, P s a → a.isCrash = false)
    (hstep : ∀ d q a o d' q', Run P s ⟨d, some q⟩ → P ⟨d, some q⟩ a → I d q →
      Step d q a o d' q' → I d' q')
    (h : Run P s t) (hp : s.proc = some p) (hi : I s.dir p) :
    ∃ q, t.proc = some q ∧ I t.dir q := by
  induction h with
  | refl => exact ⟨p, hp, hi⟩
  | tail hr hP hst ih =>
      obtain ⟨q, hq, hi⟩ := ih
      cases sysStep_of_eq hst with
      | opened => cases hq
      | notOpened => cases hq
      | crash => exact absurd (halive _ _ hP).symm Bool.false_ne_true
      | step hs =>
          cases hq
          exact ⟨_, rfl, hstep _ _ _ _ _ _ hr hP hi hs⟩

theorem Run.later [Crc32] {P : Sys → Act → Prop} {s t : Sys} {p : Process} (hs : Reach P s)
    (hcons : ∀ s, Reach P s →
      s.Holds (fun d => d.refused = false → Files d) fun d p => ∃ rest, p.Consistent d rest)
    (hp : s.proc = some p) (h : Run (Alive P) s t) :
    ∃ q, t.proc = some q ∧ Process.Later s.dir p t.dir q := by
  refine h.along (fun _ _ ha => ha.2) (fun d q a o d' q' hr _ hl hst => ?_) hp (.refl _ _)
  obtain ⟨rest, hc⟩ := hcons _ (hs.trans (hr.mono fun _ _ h => h.1))
  exact hl.trans (Process.later_step hc hst)

end LowDB
