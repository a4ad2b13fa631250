import LowDB.Engine.Captured
import LowDB.Engine.Handles

/-! # Freezing and flushing do not show

While no commit puts or publishes anything, a lookup in the current state at the visible timestamp or
later returns the same before and after every step of `force_freeze` and `flush_oldest`
(`current_getSnap`): a new memtable is empty, a new table lies behind the memtable it comes from, and a
memtable is retired when its table answers for it.  The last needs that all its versions are visible
(`Process.Settled`), which the failure of an append could break. -/

namespace LowDB

namespace CommitLock

/-- The timestamp of a commit with entries in the active memtable that are not published. -/
def putTs : CommitLock → Option ℕ
  | logged _ ts _ | sealed _ ts | recorded _ ts => some ts
  | _ => none

end CommitLock

/-- The actions by which a commit puts its entries into the active memtable and makes them visible. -/
def Act.commits : Act → Bool
  | put | publish => true
  | _ => false

namespace Process

variable {d d' : Dir} {p p' : Process} {a : Act} {o : Out} {rest : List ℕ} {k : Str} {s : ℕ}

/-- No version in a memtable in use is newer than the visible timestamp, except those of the commit
under way in the active one. -/
structure Settled (p : Process) : Prop where
  active : ∀ e ∈ (p.mems p.state.memTable).entries, p.oracle.visible < e.1.seq.toNat →
    p.commit.putTs = some e.1.seq.toNat
  frozen : ∀ id ∈ p.state.frozen, ∀ e ∈ (p.mems id).entries, e.1.seq.toNat ≤ p.oracle.visible

namespace Settled

/-- Steps that leave the versions visible and those not visible where they are. -/
theorem lock (h : p.Settled) (hm : p'.mems = p.mems) (hst : p'.state = p.state)
    (ho : p'.oracle.visible = p.oracle.visible)
    (hc : ∀ ts, p.commit.putTs = some ts → p'.commit.putTs = some ts) : p'.Settled where
  active := by
    rw [hm, hst, ho]
    exact fun e he hlt => hc _ (h.active e he hlt)
  frozen := by
    rw [hm, hst, ho]
    exact h.frozen

/-- No commit has put anything that is not published. -/
theorem active_le (h : p.Settled) (hc : p.commit.putTs = none) :
    ∀ e ∈ (p.mems p.state.memTable).entries, e.1.seq.toNat ≤ p.oracle.visible := by
  intro e he
  by_contra hlt
  have hp := h.active e he (Nat.lt_of_not_le hlt)
  rw [hc] at hp
  cases hp

variable [Crc32]

theorem put {c : Commit} {ts n : ℕ} {e : Entry} (h : p.Settled) (ho : p.Ordered d rest)
    (hc : p.commit = .logged c ts n) (he : (c.buffer.batch ts)[n]? = some e) :
    Settled { p with
      mems := Function.update p.mems p.state.memTable ((p.mems p.state.memTable).put e.1 e.2)
      commit := .logged c ts (n + 1) } where
  active x hx hlt := by
    have hts := ho.ts
    rw [hc] at hts
    have hseq := Buffer.seq_of_mem_batch (hts _ rfl) (List.mem_of_getElem? he)
    have hx : x ∈ (Function.update p.mems p.state.memTable _ p.state.memTable).entries := hx
    rw [Function.update_self, MemTable.put_entries] at hx
    cases List.mem_cons.mp (insertEntry_subset _ _ hx) with
    | inl hx =>
        subst hx
        exact congrArg some hseq.symm
    | inr hx =>
        have hp := h.active x hx hlt
        rwa [hc] at hp
  frozen id hid x hx := by
    have hne : id ≠ p.state.memTable := by
      rintro rfl
      exact active_notMem_frozen ho.ids (List.mem_append_left _ hid)
    have hx : x ∈ (Function.update p.mems p.state.memTable _ id).entries := hx
    rw [Function.update_of_ne hne] at hx
    exact h.frozen id hid x hx

/-- The active memtable is frozen when all its versions are visible. -/
theorem swap {oc : Option (Commit × ℕ)} {new : ℕ} (h : p.Settled) (ho : p.Ordered d rest)
    (hc : p.commit = .created oc new) :
    Settled { p with
      mems := Function.update p.mems new (.new new)
      state := ⟨new, p.state.ids⟩
      walBuf := []
      commit := .free } where
  active e he := by
    have he : e ∈ (Function.update p.mems new (.new new) new).entries := he
    rw [Function.update_self] at he
    cases he
  frozen id hid e he := by
    have hi := ho.ids
    unfold Ids at hi
    rw [hc] at hi
    have hnew := hi.unused new (.inl (List.mem_singleton.mpr rfl))
    have he : e ∈ (Function.update p.mems new (.new new) id).entries := he
    rw [entries_update_new hnew] at he
    cases List.mem_cons.mp hid with
    | inl hid => exact h.active_le (by rw [hc]; rfl) e (hid ▸ he)
    | inr hid => exact h.frozen id hid e he

theorem publish {c : Commit} {ts : ℕ} {oracle : Oracle} {pub : List (Str × ℕ)} (h : p.Settled)
    (ho : p.Ordered d rest) (hc : p.commit = .recorded c ts) (hv : oracle.visible = ts) :
    Settled { p with oracle := oracle, commit := .published c ts, published := pub } := by
  have hco := ho.conflicts
  unfold Conflicts at hco
  rw [hc] at hco
  have hlt := (hco.openTs _ rfl).1
  constructor
  · intro e he hgt
    have hgt : oracle.visible < e.1.seq.toNat := hgt
    rw [hv] at hgt
    have hp := h.active e he (hlt.trans hgt)
    rw [hc] at hp
    exact absurd (Option.some_inj.mp hp) hgt.ne
  · intro id hid e he
    show e.1.seq.toNat ≤ oracle.visible
    rw [hv]
    exact (h.frozen id hid e he).trans hlt.le

theorem step (h : p.Settled) (ho : p.Ordered d rest) (ha : a.fails = false)
    (hs : Step d p a o d' p') : p'.Settled := by
  have hnone : ∀ {c}, p.commit = c → c.putTs = none → ∀ ts, p.commit.putTs = some ts →
      p'.commit.putTs = some ts := by
    intro c hc hn ts hts
    rw [hc, hn] at hts
    cases hts
  cases hs with
  | set hc => exact h.lock rfl rfl rfl (hnone hc rfl)
  | commit _ _ _ _ _ hc => exact h.lock rfl rfl rfl (hnone hc rfl)
  | stamp hc => exact h.lock rfl rfl rfl (hnone hc rfl)
  | appendBegin hc => exact h.lock rfl rfl rfl (hnone hc rfl)
  | appendBatch hc => exact h.lock rfl rfl rfl (hnone hc rfl)
  | refuse hc => exact h.lock rfl rfl rfl (hnone hc rfl)
  | appendCommit hc => exact h.lock rfl rfl rfl fun ts hts => by rwa [hc] at hts
  | appendFails => cases ha
  | put hc he => exact h.put ho hc he
  | record hc => exact h.lock rfl rfl rfl fun ts hts => by rwa [hc] at hts
  | publish hc => exact h.publish ho hc rfl
  | watermark hc => exact h.lock rfl rfl rfl (hnone hc rfl)
  | prune hc => exact h.lock rfl rfl rfl (hnone hc rfl)
  | finish hc => exact h.lock rfl rfl rfl (hnone hc rfl)
  | freeze hc => exact h.lock rfl rfl rfl (hnone hc rfl)
  | @createLog oc hc =>
      cases oc with
      | none => exact h.lock rfl rfl rfl (hnone hc rfl)
      | some c => exact h.lock rfl rfl rfl (hnone hc rfl)
  | createLogFails => cases ha
  | freezeFails => cases ha
  | swap hc => exact h.swap ho hc
  | retire =>
      exact ⟨h.active, fun id hid => h.frozen id (List.mem_filter.mp hid).1⟩
  | _ => exact h.lock rfl rfl rfl fun _ hts => hts

end Settled

/-! ### Lookups in the current state -/

theorem searchMems_of_ne {t : MemTable} {ts : List MemTable} (h : t.getSnap k s ≠ .absent) :
    searchMems k s (t :: ts) = t.getSnap k s := by
  rw [searchMems]
  split
  case h_1 ha => exact absurd ha h
  case h_2 => rfl

/-- The last memtable decides where the others are silent. -/
theorem searchMems_concat (ts : List MemTable) (t : MemTable) :
    searchMems k s (ts ++ [t]) =
      if searchMems k s ts = .absent then t.getSnap k s else searchMems k s ts := by
  induction ts with
  | nil =>
      by_cases h : t.getSnap k s = .absent
      · simp [searchMems, h]
      · simp [searchMems_of_ne h, searchMems]
  | cons x ts ih =>
      by_cases h : x.getSnap k s = .absent
      · rw [List.cons_append, searchMems, searchMems, h]
        exact ih
      · rw [List.cons_append, searchMems_of_ne h, searchMems_of_ne h, if_neg h]

theorem identify_stored (l : Lookup) : identify l.stored.value = identify l.value := by
  rw [identify_value, identify_value]
  cases l with
  | found v => rw [Lookup.stored, Lookup.text_ofValue, Value.text_stored]; rfl
  | deleted => rfl
  | absent => rfl

theorem stored_eq_absent {l : Lookup} : l.stored = .absent ↔ l = .absent := by
  rw [← Lookup.text_eq_none, ← Lookup.text_eq_none]
  cases l with
  | found v => rw [Lookup.stored, Lookup.text_ofValue]; simp [Lookup.text]
  | deleted => rfl
  | absent => rfl

section code
variable [Crc32] {st st' : State}

theorem searchTables_of_ne {t : Table} {ts : List Table} {l : Lookup} (h : t.sst.get k s = .ok l)
    (hl : l ≠ .absent) : DiskStorage.searchTables k s (t :: ts) = .ok l := by
  rw [DiskStorage.searchTables, h]
  cases l with
  | absent => exact absurd rfl hl
  | found v => rfl
  | deleted => rfl

/-- The tables matter only where the memtables are silent. -/
theorem getSnap_congr (hm : searchMems k s (p'.memTables st') = searchMems k s (p.memTables st))
    (ht : searchMems k s (p.memTables st) = .absent →
      p'.storage.getSnap k s = p.storage.getSnap k s) :
    p'.getSnap st' k s = p.getSnap st k s := by
  by_cases ha : searchMems k s (p.memTables st) = .absent
  · rw [getSnap_of_absent (hm.trans ha), getSnap_of_absent ha, ht ha]
  · rw [getSnap_of_ne (fun h => ha (hm.symm.trans h)), getSnap_of_ne ha, hm]

/-- A new memtable knows nothing. -/
theorem getSnap_swap {id : ℕ} (hm : ∀ i, (p'.mems i).entries = (p.mems i).entries)
    (hid : (p.mems id).entries = []) (hst : st'.ids = id :: st.ids)
    (ht : p'.storage = p.storage) : p'.getSnap st' k s = p.getSnap st k s := by
  refine getSnap_congr ?_ fun _ => by rw [ht]
  have hnew : (p'.mems id).getSnap k s = .absent := by
    unfold MemTable.getSnap
    rw [hm, hid]
    rfl
  unfold memTables
  rw [hst, List.map_cons, searchMems, hnew]
  apply searchMems_congr
  intro i _
  unfold MemTable.getSnap
  rw [hm]

/-- The new table lies behind the memtable it comes from. -/
theorem getSnap_install {mt : ℕ} {t : Table} (hm : p'.mems = p.mems)
    (hts : p'.storage.tables = t :: p.storage.tables) (hmt : mt ∈ st.ids) (hex : t.Exact)
    (ht : t.entries = newest (p.mems mt).entries) : p'.getSnap st k s = p.getSnap st k s := by
  apply getSnap_congr (by unfold memTables; rw [hm])
  intro ha
  have hmem := searchMems_eq_absent.mp ha (p.mems mt) (List.mem_map_of_mem hmt)
  have hsilent : t.sst.get k s = .ok .absent := by
    apply hex.get_absent
    intro e he hu
    have he : e ∈ (p.mems mt).entries := (newest_sublist _).subset (ht ▸ he)
    exact lt_of_lookupIn_absent (p.mems mt).sorted hmem he hu
  unfold DiskStorage.getSnap
  rw [hts, DiskStorage.searchTables, hsilent]
  rfl

/-- The table of a memtable, first in the order, answers for it. -/
theorem storage_getSnap_of_flushed {mt : ℕ} (hfl : Flushed p.mems p.storage.tables mt)
    (hex : (p.mems mt).entries = [] ∨ ∀ t ∈ p.storage.tables.head?, t.Exact)
    (hle : ∀ e ∈ (p.mems mt).entries, e.1.seq.toNat ≤ s)
    (hne : (p.mems mt).getSnap k s ≠ .absent) :
    p.storage.getSnap k s = .ok ((p.mems mt).getSnap k s).stored := by
  have hsorted := (p.mems mt).sorted
  have hsome : ∃ e ∈ (p.mems mt).entries, e.1.user = k := by
    by_contra hnone
    push Not at hnone
    exact hne (lookupIn_absent hsorted fun e he hu => absurd hu (hnone e he))
  have hnil : (p.mems mt).entries ≠ [] := hsome.elim fun e he => List.ne_nil_of_mem he.1
  obtain ⟨t, ts, hts, ht⟩ := hfl.resolve_left hnil
  have hex : t.Exact := hex.resolve_left hnil t (by rw [hts]; rfl)
  have hget : t.sst.get k s = .ok ((p.mems mt).getSnap k s).stored := by
    rw [hex.get_eq, ht, lookupIn_newest_of_le hsorted hsome fun e he _ => hle e he]
    rfl
  unfold DiskStorage.getSnap
  rw [hts]
  exact searchTables_of_ne hget fun h => hne (stored_eq_absent.mp h)

/-- The table answers for the memtable that is retired. -/
theorem getSnap_retire {mt : ℕ} {ids : List ℕ} (hm : p'.mems = p.mems)
    (ht : p'.storage = p.storage) (hst' : st'.ids = ids) (hst : st.ids = ids ++ [mt])
    (hfl : Flushed p.mems p.storage.tables mt)
    (hex : (p.mems mt).entries = [] ∨ ∀ t ∈ p.storage.tables.head?, t.Exact)
    (hle : ∀ e ∈ (p.mems mt).entries, e.1.seq.toNat ≤ s) :
    (p'.getSnap st' k s).map identify = (p.getSnap st k s).map identify := by
  have hmems : searchMems k s (p.memTables st) =
      if searchMems k s (p'.memTables st') = .absent then (p.mems mt).getSnap k s
      else searchMems k s (p'.memTables st') := by
    unfold memTables
    rw [hst, hst', hm, List.map_append]
    exact searchMems_concat _ _
  by_cases ha : searchMems k s (p'.memTables st') = .absent
  · rw [if_pos ha] at hmems
    rw [getSnap_of_absent ha, ht]
    by_cases hmt : (p.mems mt).getSnap k s = .absent
    · rw [getSnap_of_absent (hmems.trans hmt)]
    · rw [getSnap_of_ne (fun h => hmt (hmems.symm.trans h)), hmems,
        storage_getSnap_of_flushed hfl hex hle hmt]
      exact congrArg Except.ok (identify_stored _)
  · rw [if_neg ha] at hmems
    rw [getSnap_of_ne ha, getSnap_of_ne (fun h => ha (hmems.symm.trans h)), hmems]

end code

variable [Crc32]

/-- Every step but those of a commit that put or publish its entries. -/
theorem current_step (ho : p.Ordered d rest) (hst : p.Settled) (hs : Step d p a o d' p')
    (ha : a.commits = false) (hle : p.oracle.visible ≤ s) :
    (p'.getSnap p'.state k s).map identify = (p.getSnap p.state k s).map identify := by
  have hfl := ho.flush
  have hnt := ho.table
  unfold Flush at hfl
  unfold NewTable at hnt
  cases hs with
  | put => cases ha
  | @swap _ new hc =>
      have hi := ho.ids
      unfold Ids at hi
      rw [hc] at hi
      have hnew := hi.unused new (.inl (List.mem_singleton.mpr rfl))
      exact congrArg _ (getSnap_swap (entries_update_new hnew) hnew rfl rfl)
  | install hf =>
      rw [hf] at hfl hnt
      obtain ⟨⟨fs, hfs⟩, ht⟩ := hfl
      have hmt : _ ∈ p.state.ids := List.mem_cons_of_mem _ (hfs ▸ List.mem_concat_self)
      exact congrArg _ (getSnap_install rfl (DiskStorage.tables_install _ _) hmt hnt ht)
  | @retire mt hf =>
      rw [hf] at hfl hnt
      obtain ⟨⟨fs, hfs⟩, ht⟩ := hfl
      have hmt : mt ∈ p.state.frozen := hfs ▸ List.mem_concat_self
      have hids : State.ids ⟨p.state.memTable, p.state.frozen.filter fun id => id ≠ mt⟩ =
          p.state.memTable :: fs := by
        rw [State.ids, filter_frozen ho.ids hfs]
      refine getSnap_retire rfl rfl hids ?_ ht hnt fun e he => (hst.frozen mt hmt e he).trans hle
      rw [State.ids, hfs]
      rfl
  | _ => rfl

theorem visible_step (hs : Step d p a o d' p') (ha : a.commits = false) :
    p'.oracle.visible = p.oracle.visible := by
  cases hs with
  | publish => cases ha
  | _ => rfl

end Process

/-- No I/O operation fails, and no commit puts or publishes anything. -/
def Quiet (s : Sys) (a : Act) : Prop := Alive NoFailure s a ∧ a.commits = false

instance (s : Sys) (a : Act) : Decidable (Quiet s a) := inferInstanceAs (Decidable (_ ∧ _))

section runs
variable [Crc32] {s t : Sys} {p q : Process} {k : Str} {seq : ℕ}

theorem Run.settled (h : Reach NoFailure s) :
    s.Holds (fun d => (d.wal.map Log.id).Pairwise fun a b => a < b)
      fun d p => ∃ rest, p.Ordered d rest ∧ p.Settled := by
  refine h.holds (fun d p _ _ hs ho => ?_) (fun d p ⟨_, hp, _⟩ => hp.ids.sorted)
    (fun d p a o d' p' _ ha ⟨_, hp, hst⟩ hs => ?_) List.Pairwise.nil
  · obtain ⟨hord, hle⟩ := Process.ordered_open hs ho
    exact ⟨[], hord, fun e he hlt => absurd (hle _ e he) hlt.not_ge, fun id _ => hle id⟩
  · exact ⟨_, hp.step hs, hst.step hp ha hs⟩

theorem Run.current (hs : Reach NoFailure s) (hp : s.proc = some p) (ht : Run Quiet s t)
    (hle : p.oracle.visible ≤ seq) :
    ∃ q, t.proc = some q ∧ q.oracle.visible = p.oracle.visible ∧
      (q.getSnap q.state k seq).map identify = (p.getSnap p.state k seq).map identify := by
  refine ht.along (I := fun _ q => q.oracle.visible = p.oracle.visible ∧
    (q.getSnap q.state k seq).map identify = (p.getSnap p.state k seq).map identify)
    (fun _ _ ha => ha.1.2) (fun d q a o d' q' hr ha ⟨hv, hget⟩ hst => ?_) hp ⟨rfl, rfl⟩
  obtain ⟨rest, hord, hset⟩ := (hs.trans (hr.mono fun _ _ h => h.1.1)).settled
  exact ⟨(Process.visible_step hst ha.2).trans hv,
    (Process.current_step hord hset hst ha.2 (hv ▸ hle)).trans hget⟩

/-- **Freezing and flushing do not show**: as long as no commit puts or publishes anything, a lookup in
the current state, at the visible timestamp or later, returns the same value. -/
theorem current_getSnap (hs : Reach NoFailure s) (hp : s.proc = some p) (ht : Run Quiet s t)
    (hq : t.proc = some q) (hle : p.oracle.visible ≤ seq) :
    (q.getSnap q.state k seq).map identify = (p.getSnap p.state k seq).map identify := by
  obtain ⟨q', hq', -, hget⟩ := Run.current hs hp ht hle
  cases hq.symm.trans hq'
  exact hget

end runs

/-- A key is overwritten, and the memtable with both versions frozen and flushed. -/
def currentGetSnapFlush : Option (Sys × Sys × Process × Process × Str) := do
  let s ← @exec crc32 NoFailure _ .init
    (.open :: (setActs keyK textOne ++ setActs keyK textTwo))
  let t ← @exec crc32 Quiet _ s (freezeActs ++ flushActs)
  let p ← s.proc
  let q ← t.proc
  match @Process.getSnap crc32 p p.state keyK p.oracle.visible, p.state.frozen,
    decide (q.written = [p.state.memTable]), q.state.frozen with
  | .ok (some v), [], true, [] => return (s, t, p, q, v)
  | _, _, _, _ => none

theorem current_getSnap_flush : ∃ (s t : Sys) (p q : Process) (v : Str),
    s.proc = some p ∧ p.state.frozen = [] ∧ t.proc = some q ∧ q.written = [p.state.memTable] ∧
      q.state.frozen = [] ∧ @Process.getSnap crc32 p p.state keyK p.oracle.visible = .ok (some v) ∧
      (@Process.getSnap crc32 q q.state keyK p.oracle.visible).map identify =
        .ok (identify (some v)) := by
  have h : currentGetSnapFlush.isSome := by decide +kernel
  obtain ⟨⟨s, t, p, q, v⟩, h⟩ := Option.isSome_iff_exists.mp h
  unfold currentGetSnapFlush at h
  simp only [bind, Option.bind_eq_some_iff] at h
  obtain ⟨_, hs, _, ht, _, hp, _, hq, he⟩ := h
  split at he
  case h_2 => cases he
  case h_1 hv hpf hw hqf =>
    cases he
    have hget := @current_getSnap crc32 s t p q keyK p.oracle.visible
      (@reach_of_exec crc32 _ _ _ _ hs) hp
      (@run_of_exec crc32 _ _ _ _ _ _ (@Run.refl crc32 _ s) ht) hq le_rfl
    rw [hv] at hget
    exact ⟨s, t, p, q, v, hp, hpf, hq, of_decide_eq_true hw, hqf, hv, hget⟩

end LowDB
