import LowDB.Engine.Layering
import LowDB.Engine.Crash

/-! # Where committed versions are

Once the record of a commit is written, each of its versions is in the log of a memtable in use and in
this memtable, until a table has it or a newer version of its key (`Process.Kept`).  Every action keeps
this, because a memtable is retired only after its table is in place (`Filed`) and a log is removed only
after its memtable is retired.  Where no append has been refused, opening keeps it too. -/

namespace LowDB

open Layered

/-- The commit under way, once it is published. -/
def CommitLock.finished : CommitLock → Option (Commit × ℕ)
  | published c ts | watermarked c ts _ | pruned c ts => some (c, ts)
  | created o _ => o
  | _ => none

/-! ### Where a version is -/

/-- The log has a committed record of the version. -/
def Log.Records (l : Log) (x : Version) : Prop := ∃ s ∈ l.sets, ∃ e ∈ s.batch, e.version = x

/-- A finished table of level 0 has the version, or a newer one of its key. -/
def Dir.Tabled [Crc32] (d : Dir) (x : Version) : Prop :=
  ∃ f ∈ d.ss, f.level = 0 ∧ f.Stored ∧
    ∃ e ∈ f.entries, e.version = x ∨ e.1.user = x.1 ∧ x.2.1 < e.1.seq.toNat

/-- The version is in a table, or in the log of a memtable in use and in this memtable. -/
def Process.Kept [Crc32] (d : Dir) (p : Process) (x : Version) : Prop :=
  d.Tabled x ∨ ∃ l ∈ d.wal, l.id ∈ p.state.ids ∧ l.Records x ∧ x ∈ layer (p.mems l.id).entries

/-- The version is in a table, or in a log, as far as one can read it. -/
def Dir.Kept [Crc32] (d : Dir) (x : Version) : Prop := d.Tabled x ∨ ∃ l ∈ d.wal, x ∈ l.layer

theorem Dir.Tabled.mono [Crc32] {d d' : Dir} {x : Version} (h : d.Tabled x) (hs : d.ss ⊆ d'.ss) :
    d'.Tabled x := by
  obtain ⟨f, hf, h⟩ := h
  exact ⟨f, hs hf, h⟩

/-- The newest versions of a memtable cover all its versions. -/
theorem exists_newest {es : List Entry} (hs : Sorted es) {x : Version} (hx : x ∈ layer es) :
    ∃ e ∈ newest es, e.version = x ∨ e.1.user = x.1 ∧ x.2.1 < e.1.seq.toNat := by
  obtain ⟨e, he, rfl⟩ := hx
  obtain ⟨y, hy, hu⟩ := exists_mem_newest he
  obtain ⟨hmem, hmax⟩ := (mem_newest hs).mp hy
  refine ⟨y, hy, ?_⟩
  rcases (hmax e he hu.symm).eq_or_lt with heq | hlt
  · have hk : e.1 = y.1 := Key.eq_of_user_seq hu.symm heq
    have hey := hs.eq_of_key he hmem hk
    exact .inl (hey ▸ rfl)
  · exact .inr ⟨hu, hlt⟩

/-! ### What an action does to logs, memtables and tables -/

namespace Process

variable [Crc32] {d d' : Dir} {p p' : Process} {a : Act} {o : Out} {rest : List ℕ} {x : Version}

omit [Crc32] in
/-- An append keeps the records there are. -/
theorem records_alterLog {id : ℕ} {f : Log → Log} {l : Log} (hid : ∀ l, (f l).id = l.id)
    (hf : ∀ l x, l.Records x → (f l).Records x) (hl : l ∈ d.wal) :
    ∃ l' ∈ (d.alterLog id f).wal, l'.id = l.id ∧ ∀ x, l.Records x → l'.Records x := by
  refine ⟨_, Dir.mem_alterLog.mpr ⟨l, hl, rfl⟩, ?_⟩
  by_cases he : l.id = id
  · rw [if_pos he]
    exact ⟨hid l, hf l⟩
  · rw [if_neg he]
    exact ⟨rfl, fun _ hx => hx⟩

/-- The logs of the memtables in use keep their records. -/
theorem records_step (hi : p.Ids d rest) (hs : Step d p a o d' p') {l : Log} (hl : l ∈ d.wal)
    (hid : l.id ∈ p.state.ids) : ∃ l' ∈ d'.wal, l'.id = l.id ∧ ∀ x, l.Records x → l'.Records x := by
  cases hs with
  | appendBegin => exact records_alterLog (fun _ => rfl) (fun _ _ hx => hx) hl
  | appendBatch => exact records_alterLog (fun _ => rfl) (fun _ _ hx => hx) hl
  | refuse => exact records_alterLog (fun _ => rfl) (fun _ _ hx => hx) hl
  | appendFails => exact records_alterLog (fun _ => rfl) (fun _ _ hx => hx) hl
  | appendCommit =>
      refine records_alterLog (fun _ => rfl) (fun _ _ ⟨s, hs, hx⟩ => ?_) hl
      exact ⟨s, List.mem_append_left _ hs, hx⟩
  | createLog => exact ⟨l, List.mem_append_left _ hl, rfl, fun _ hx => hx⟩
  | @removeLog mt hf =>
      have hne : l.id ≠ mt := by
        rintro rfl
        have hn := (List.nodup_append.mp hi.nodup).2.1
        rw [hf] at hn
        exact (List.nodup_append.mp hn).2.2 _ hid _ List.mem_cons_self rfl
      exact ⟨l, List.mem_filter.mpr ⟨hl, by simpa using hne⟩, rfl, fun _ hx => hx⟩
  | _ => exact ⟨l, hl, rfl, fun _ hx => hx⟩

/-- A version of the commit whose record is appended next. -/
def Seals (p : Process) (x : Version) : Prop :=
  ∃ c ts, p.commit = .logged c ts (c.buffer.batch ts).length ∧ ∃ e ∈ c.buffer.batch ts, e.version = x

omit [Crc32] in
theorem records_of_alterLog {id : ℕ} {f : Log → Log} {l' : Log} {q : Version → Prop}
    (hl' : l' ∈ (d.alterLog id f).wal) (hid : ∀ l, (f l).id = l.id)
    (hf : ∀ l x, (f l).Records x → l.Records x ∨ q x) :
    ∃ l ∈ d.wal, l.id = l'.id ∧ ∀ x, l'.Records x → l.Records x ∨ l.id = id ∧ q x := by
  obtain ⟨l, hl, rfl⟩ := Dir.mem_alterLog.mp hl'
  refine ⟨l, hl, ?_⟩
  by_cases he : l.id = id
  · rw [if_pos he]
    exact ⟨(hid l).symm, fun x hx => (hf l x hx).imp_right fun hq => ⟨he, hq⟩⟩
  · rw [if_neg he]
    exact ⟨rfl, fun _ hx => .inl hx⟩

/-- A log has what it had before, the active one perhaps the record of a commit besides. -/
theorem records_of_step (hs : Step d p a o d' p') {l' : Log} (hl' : l' ∈ d'.wal) :
    (l'.sets = [] ∧ l'.id = p.nextWal) ∨ ∃ l ∈ d.wal, l.id = l'.id ∧
      ∀ x, l'.Records x → l.Records x ∨ l.id = p.state.memTable ∧ p.Seals x := by
  cases hs with
  | appendBegin => exact .inr (records_of_alterLog hl' (fun _ => rfl) fun _ _ hx => .inl hx)
  | appendBatch => exact .inr (records_of_alterLog hl' (fun _ => rfl) fun _ _ hx => .inl hx)
  | refuse => exact .inr (records_of_alterLog hl' (fun _ => rfl) fun _ _ hx => .inl hx)
  | appendFails => exact .inr (records_of_alterLog hl' (fun _ => rfl) fun _ _ hx => .inl hx)
  | @appendCommit c ts hc =>
      refine .inr (records_of_alterLog hl' (fun _ => rfl) fun l x ⟨s, hs, hx⟩ => ?_)
      cases List.mem_append.mp hs with
      | inl hs => exact .inl ⟨s, hs, hx⟩
      | inr hs =>
          rw [List.mem_singleton.mp hs] at hx
          exact .inr ⟨c, ts, hc, hx⟩
  | createLog =>
      cases List.mem_append.mp hl' with
      | inl hl => exact .inr ⟨l', hl, rfl, fun _ hx => .inl hx⟩
      | inr hl =>
          rw [List.mem_singleton.mp hl]
          exact .inl ⟨rfl, rfl⟩
  | removeLog => exact .inr ⟨l', (List.mem_filter.mp hl').1, rfl, fun _ hx => .inl hx⟩
  | _ => exact .inr ⟨l', hl', rfl, fun _ hx => .inl hx⟩

/-- The memtables in use keep their entries. -/
theorem entries_step (hi : p.Ids d rest) (hs : Step d p a o d' p') {id : ℕ} :
    (p.mems id).entries ⊆ (p'.mems id).entries := by
  cases hs with
  | put =>
      show (p.mems id).entries ⊆ (Function.update p.mems p.state.memTable _ id).entries
      by_cases he : id = p.state.memTable
      · rw [he, Function.update_self]
        exact subset_insertEntry _ _
      · rw [Function.update_of_ne he]
        exact fun _ h => h
  | @swap _ new hc =>
      unfold Ids at hi
      rw [hc] at hi
      have hnew := hi.unused new (.inl List.mem_cons_self)
      show (p.mems id).entries ⊆ (Function.update p.mems new (.new new) id).entries
      rw [entries_update_new hnew]
      exact fun _ h => h
  | _ => exact fun _ h => h

theorem entries_of_step (hs : Step d p a o d' p') {id : ℕ} {e : Entry} (he : e ∈ (p'.mems id).entries) :
    e ∈ (p.mems id).entries ∨ id = p.state.memTable ∧
      ∃ c ts n, p.commit = .logged c ts n ∧ e ∈ c.buffer.batch ts := by
  cases hs with
  | @put c ts n x hc hx =>
      have he : e ∈ (Function.update p.mems p.state.memTable _ id).entries := he
      by_cases hid : id = p.state.memTable
      · rw [hid, Function.update_self, MemTable.put_entries] at he
        cases List.mem_cons.mp (insertEntry_subset _ _ he) with
        | inl he => exact .inr ⟨hid, c, ts, n, hc, he ▸ List.mem_of_getElem? hx⟩
        | inr he => exact .inl (hid ▸ he)
      · rw [Function.update_of_ne hid] at he
        exact .inl he
  | @swap _ new hc =>
      have he : e ∈ (Function.update p.mems new (.new new) id).entries := he
      by_cases hid : id = new
      · rw [hid, Function.update_self] at he
        cases he
      · rw [Function.update_of_ne hid] at he
        exact .inl he
  | _ => exact .inl he

/-- A memtable stays in use until it is retired. -/
theorem ids_of_step (hs : Step d p a o d' p') {id : ℕ} (hid : id ∈ p.state.ids) :
    id ∈ p'.state.ids ∨ p.flush = .installed id := by
  cases hs with
  | swap => exact .inl (List.mem_cons_of_mem _ hid)
  | @retire mt hf =>
      by_cases he : id = mt
      · exact .inr (he ▸ hf)
      · refine .inl ?_
        cases List.mem_cons.mp hid with
        | inl hid => exact hid ▸ List.mem_cons_self
        | inr hid => exact List.mem_cons_of_mem _ (List.mem_filter.mpr ⟨hid, by simpa using he⟩)
  | _ => exact .inl hid

/-- Tables are only added. -/
theorem ss_step (hid : ∀ f ∈ d.ss, f.id < p.storage.id) (hs : Step d p a o d' p') :
    d.ss ⊆ d'.ss := by
  cases hs with
  | writeTable =>
      show d.ss ⊆ putFile _ d.ss
      rw [putFile_eq hid]
      exact List.subset_append_left _ _
  | _ => exact fun _ h => h

/-! ### The table of the flush under way -/

/-- The tables are numbered below the next one, and that of a memtable still in use is in its place. -/
structure Filed (d : Dir) (p : Process) : Prop where
  ids : ∀ f ∈ d.ss, f.id < p.storage.id
  covered : ∀ mt, p.flush.covered = some mt → (p.mems mt).entries = [] ∨
    ∃ f ∈ d.ss, f.level = 0 ∧ f.Stored ∧ f.entries = newest (p.mems mt).entries

namespace Filed

/-- Actions that end no flush and write no table. -/
theorem frame (h : p.Filed d) (hss : d'.ss = d.ss) (hid : p.storage.id ≤ p'.storage.id)
    (hc : ∀ mt, p'.flush.covered = some mt →
      p.flush.covered = some mt ∧ (p'.mems mt).entries = (p.mems mt).entries) : p'.Filed d' where
  ids f hf := (h.ids f (hss ▸ hf)).trans_le hid
  covered mt hmt := by
    obtain ⟨hcov, he⟩ := hc mt hmt
    rw [hss, he]
    exact h.covered mt hcov

theorem step (h : p.Filed d) (hi : p.Ids d rest) (hfl : p.Flush) (hs : Step d p a o d' p') :
    p'.Filed d' := by
  cases hs with
  | put =>
      refine h.frame rfl le_rfl fun mt hc => ⟨hc, ?_⟩
      have hne : mt ≠ p.state.memTable := by
        rintro rfl
        exact active_notMem_frozen hi (List.mem_append_left _ (covered_mem hfl hc))
      exact congrArg MemTable.entries (Function.update_of_ne hne _ _)
  | @swap _ new hc =>
      unfold Ids at hi
      rw [hc] at hi
      have hnew := hi.unused new (.inl List.mem_cons_self)
      exact h.frame rfl le_rfl fun mt hc => ⟨hc, entries_update_new hnew mt⟩
  | pick => exact h.frame rfl le_rfl fun _ hc => nomatch hc
  | @writeTable mt bytes m hf hw =>
      obtain ⟨b, hb, hbytes, hm⟩ := writeL0_some hw
      have hst : TableFile.Stored ⟨0, p.storage.id, bytes, newest (p.mems mt).entries⟩ := by
        refine ⟨(p.mems mt).sorted.newest, b, hb, hbytes.symm, ?_⟩
        rw [← hbytes, ← hm]
        exact hw
      constructor
      · intro f hmem
        have hmem : f ∈ putFile _ d.ss := hmem
        rw [putFile_eq h.ids] at hmem
        cases List.mem_append.mp hmem with
        | inl hmem => exact (h.ids f hmem).trans (Nat.lt_succ_self _)
        | inr hmem => exact List.mem_singleton.mp hmem ▸ Nat.lt_succ_self _
      · intro mt' hc
        cases hc
        refine .inr ⟨_, ?_, rfl, hst, rfl⟩
        show _ ∈ putFile _ d.ss
        rw [putFile_eq h.ids]
        exact List.mem_concat_self
  | writeNothing hf hw =>
      refine ⟨fun f hmem => (h.ids f hmem).trans (Nat.lt_succ_self _), fun mt hc => .inl ?_⟩
      cases hc
      exact writeL0_none hw
  | writeRefused => exact h.frame rfl (Nat.le_succ _) fun _ hc => nomatch hc
  | writeTableFails => exact h.frame rfl (Nat.le_succ _) fun _ hc => nomatch hc
  | install hf => exact h.frame rfl le_rfl fun mt hc => ⟨by rw [hf]; exact hc, rfl⟩
  | retire => exact h.frame rfl le_rfl fun _ hc => nomatch hc
  | removeLog => exact h.frame rfl le_rfl fun _ hc => nomatch hc
  | removeLogFails => exact h.frame rfl le_rfl fun _ hc => nomatch hc
  | _ => exact h.frame rfl le_rfl fun _ hc => ⟨hc, rfl⟩

/-- What a flushed memtable has is in a table. -/
theorem tabled {mt : ℕ} (h : p.Filed d) (hc : p.flush.covered = some mt)
    (hx : x ∈ layer (p.mems mt).entries) : d.Tabled x := by
  cases h.covered mt hc with
  | inl hnil =>
      rw [hnil, layer_nil] at hx
      cases hx
  | inr hf =>
      obtain ⟨f, hf, hlevel, hst, he⟩ := hf
      exact ⟨f, hf, hlevel, hst, he ▸ exists_newest (p.mems mt).sorted hx⟩

end Filed

/-- **No version is lost**: it stays in its log and its memtable until it is in a table. -/
theorem Kept.step (h : p.Kept d x) (hi : p.Ids d rest) (hfd : p.Filed d)
    (hs : Step d p a o d' p') : p'.Kept d' x := by
  cases h with
  | inl h => exact .inl (h.mono (ss_step hfd.ids hs))
  | inr h =>
      obtain ⟨l, hl, hid, hr, hx⟩ := h
      cases ids_of_step hs hid with
      | inl hid' =>
          obtain ⟨l', hl', he, hr'⟩ := records_step hi hs hl hid
          exact .inr ⟨l', hl', he ▸ hid', hr' x hr, he ▸ layer_mono (entries_step hi hs) hx⟩
      | inr hf =>
          have htab := hfd.tabled (by rw [hf]; rfl) hx
          exact .inl (htab.mono (ss_step hfd.ids hs))

/-! ### The commit under way -/

/-- Where the versions of the commit under way are. -/
structure Placed (d : Dir) (p : Process) : Prop where
  put : ∀ c ts n, p.commit = .logged c ts n →
    (∀ e ∈ (c.buffer.batch ts).take n, e ∈ (p.mems p.state.memTable).entries) ∧
      ∀ y ∈ (p.mems p.state.memTable).entries, ts ≤ y.1.seq.toNat → y ∈ (c.buffer.batch ts).take n
  active : ∀ l ∈ d.wal, l.id = p.state.memTable → ∀ x, l.Records x → x ∈ layer (p.mems l.id).entries
  fresh : ∀ l ∈ d.wal, l.id ∈ p.commit.newLogs → ∀ x, ¬ l.Records x
  durable : ∀ c ts, p.commit.durable = some (c, ts) → ∀ e ∈ c.buffer.batch ts, p.Kept d e.version
  visible : ∀ c ts, p.commit.finished = some (c, ts) →
    ∀ e ∈ c.buffer.batch ts, e.1.seq.toNat ≤ p.oracle.visible

namespace Placed

/-- What a commit is about to seal is in the active memtable. -/
theorem layer_of_seals (h : p.Placed d) (hx : p.Seals x) :
    x ∈ layer (p.mems p.state.memTable).entries := by
  obtain ⟨c, ts, hc, e, he, rfl⟩ := hx
  refine ⟨e, (h.put c ts _ hc).1 e ?_, rfl⟩
  rwa [List.take_length]

/-- An entry that is put is newer than what was there, or comes after it in the batch. -/
theorem put_insert {c : Commit} {ts n : ℕ} {e : Entry} (h : p.Placed d) (hts : ts < 2 ^ 64)
    (hc : p.commit = .logged c ts n) (he : (c.buffer.batch ts)[n]? = some e) :
    (∀ x ∈ (c.buffer.batch ts).take (n + 1),
        x ∈ ((p.mems p.state.memTable).put e.1 e.2).entries) ∧
      ∀ y ∈ ((p.mems p.state.memTable).put e.1 e.2).entries, ts ≤ y.1.seq.toNat →
        y ∈ (c.buffer.batch ts).take (n + 1) := by
  obtain ⟨hput, hnew⟩ := h.put c ts n hc
  obtain ⟨hn, he'⟩ := List.getElem?_eq_some_iff.mp he
  have htake : (c.buffer.batch ts).take (n + 1) = (c.buffer.batch ts).take n ++ [e] := by
    rw [← he', List.take_append_getElem]
  have hseq := Buffer.seq_of_mem_batch hts (List.mem_of_getElem? he)
  have hfresh : ∀ y ∈ (p.mems p.state.memTable).entries, y.1 ≠ e.1 := by
    intro y hy hye
    have hpre := c.buffer.sorted_batch ts
    rw [← List.take_append_drop (n + 1) (c.buffer.batch ts), htake] at hpre
    have hlt := (List.pairwise_append.mp (List.pairwise_append.mp hpre).1).2.2 y
      (hnew y hy (by rw [hye, hseq])) e (List.mem_singleton_self e)
    rw [hye] at hlt
    exact lt_irrefl _ hlt
  rw [htake, MemTable.put_entries]
  constructor
  · intro x hx
    apply (mem_insertEntry (MemTable.sorted _)).mpr
    cases List.mem_append.mp hx with
    | inl hx => exact .inl (hput x hx)
    | inr hx => exact .inr ⟨List.mem_singleton.mp hx, hfresh⟩
  · intro y hy hle
    cases List.mem_cons.mp (insertEntry_subset _ _ hy) with
    | inl hy => exact List.mem_append_right _ (List.mem_singleton.mpr hy)
    | inr hy => exact List.mem_append_left _ (hnew y hy hle)

theorem put_step (h : p.Placed d) (ho : p.Ordered d rest) (hset : p.Settled)
    (hs : Step d p a o d' p') : ∀ c ts n, p'.commit = .logged c ts n →
      (∀ e ∈ (c.buffer.batch ts).take n, e ∈ (p'.mems p'.state.memTable).entries) ∧
        ∀ y ∈ (p'.mems p'.state.memTable).entries, ts ≤ y.1.seq.toNat →
          y ∈ (c.buffer.batch ts).take n := by
  intro c ts n hc
  have hco := ho.conflicts
  unfold Conflicts at hco
  cases hs with
  | appendBatch hb =>
      cases hc
      rw [hb] at hco
      have hlt := (hco.openTs _ rfl).1
      refine ⟨(fun e he => nomatch he), ?_⟩
      intro y hy hle
      exact absurd (hset.active_le (by rw [hb]; rfl) y hy) (hlt.trans_le hle).not_ge
  | put hl he =>
      cases hc
      have hts := ho.ts
      rw [hl] at hts
      have hins := h.put_insert (hts _ rfl) hl he
      show (∀ e ∈ _, e ∈ (Function.update p.mems p.state.memTable _ p.state.memTable).entries) ∧
        ∀ y ∈ (Function.update p.mems p.state.memTable _ p.state.memTable).entries, _
      rwa [Function.update_self]
  | set | commit | stamp | appendBegin | refuse | appendCommit | appendFails | record | publish
  | watermark | prune | finish | freeze | createLog | createLogFails | freezeFails | swap => cases hc
  | _ => exact h.put c ts n hc

/-- The active memtable changes for the one whose log has been created. -/
theorem active_step (hs : Step d p a o d' p') : p'.state.memTable = p.state.memTable ∨
    p'.state.memTable ∈ p.commit.newLogs := by
  cases hs with
  | swap hc => exact .inr (by rw [hc]; exact List.mem_cons_self)
  | _ => exact .inl rfl

theorem log_step (h : p.Placed d) (hi : p.Ids d rest) (hs : Step d p a o d' p') :
    ∀ l ∈ d'.wal, l.id = p'.state.memTable → ∀ x, l.Records x → x ∈ layer (p'.mems l.id).entries := by
  intro l' hl' hid x hx
  cases records_of_step hs hl' with
  | inl hnew =>
      obtain ⟨s, hs, _⟩ := hx
      rw [hnew.1] at hs
      cases hs
  | inr hold =>
      obtain ⟨l, hl, he, hr⟩ := hold
      rw [← he] at hid ⊢
      apply layer_mono (entries_step hi hs)
      cases hr x hx with
      | inl hx =>
          cases active_step hs with
          | inl hact => exact h.active l hl (hid.trans hact) x hx
          | inr hact => exact absurd hx (h.fresh l hl (hid ▸ hact) x)
      | inr hx => exact hx.1 ▸ h.layer_of_seals hx.2

theorem fresh_step (h : p.Placed d) (hi : p.Ids d rest) (hs : Step d p a o d' p') :
    ∀ l ∈ d'.wal, l.id ∈ p'.commit.newLogs → ∀ x, ¬ l.Records x := by
  intro l' hl' hid x hx
  -- a log without a memtable is the one just created, or was one before
  have hnew : l'.id = p.nextWal ∨ l'.id ∈ p.commit.newLogs := by
    cases hs with
    | createLog => exact .inl (List.mem_singleton.mp hid)
    | set | commit | stamp | appendBegin | appendBatch | refuse | appendCommit | appendFails | put
    | record | publish | watermark | prune | finish | freeze | createLogFails | freezeFails
    | swap => cases hid
    | _ => exact .inr hid
  cases records_of_step hs hl' with
  | inl hnil =>
      obtain ⟨s, hs, _⟩ := hx
      rw [hnil.1] at hs
      cases hs
  | inr hold =>
      obtain ⟨l, hl, he, hr⟩ := hold
      cases hnew with
      | inl hnew => exact (hi.lt _ (List.mem_map_of_mem hl)).ne (he.trans hnew)
      | inr hnew =>
          cases hr x hx with
          | inl hx => exact h.fresh l hl (he ▸ hnew) x hx
          | inr hx =>
              obtain ⟨_, c, ts, hc, _⟩ := hx
              rw [hc] at hnew
              cases hnew

theorem durable_step (h : p.Placed d) (hi : p.Ids d rest) (hfd : p.Filed d)
    (hs : Step d p a o d' p') : ∀ c ts, p'.commit.durable = some (c, ts) →
      ∀ e ∈ c.buffer.batch ts, p'.Kept d' e.version := by
  intro c ts hc e he
  have hold : p.commit.durable = some (c, ts) → p'.Kept d' e.version :=
    fun hc => (h.durable c ts hc e he).step hi hfd hs
  cases hs with
  | appendCommit hl =>
      cases hc
      obtain ⟨l, hmem, hid⟩ := exists_log hi (List.mem_append_left _ List.mem_cons_self)
      have hlay : e.version ∈ layer (p.mems p.state.memTable).entries :=
        h.layer_of_seals ⟨_, _, hl, e, he, rfl⟩
      refine .inr ⟨_, Dir.mem_alterLog.mpr ⟨l, hmem, rfl⟩, ?_⟩
      rw [if_pos hid]
      refine ⟨hid ▸ List.mem_cons_self, ?_, hid ▸ hlay⟩
      exact ⟨_, List.mem_append_right _ (List.mem_singleton.mpr rfl), e, he, rfl⟩
  | record hl => exact hold (by rw [hl]; exact hc)
  | publish hl => exact hold (by rw [hl]; exact hc)
  | watermark hl => exact hold (by rw [hl]; exact hc)
  | prune hl => exact hold (by rw [hl]; exact hc)
  | @createLog o hl =>
      cases o with
      | none => cases hc
      | some x =>
          cases hc
          exact hold (by rw [hl]; rfl)
  | set | commit | stamp | appendBegin | appendBatch | refuse | appendFails | put | finish | freeze
  | createLogFails | freezeFails | swap => cases hc
  | _ => exact hold hc

theorem finished_step (h : p.Placed d) (ho : p.Ordered d rest) (hs : Step d p a o d' p') :
    ∀ c ts, p'.commit.finished = some (c, ts) →
      ∀ e ∈ c.buffer.batch ts, e.1.seq.toNat ≤ p'.oracle.visible := by
  intro c ts hc e he
  cases hs with
  | @publish c' ts' hl =>
      cases hc
      have hts := ho.ts
      rw [hl] at hts
      exact (Buffer.seq_of_mem_batch (hts _ rfl) he).le
  | watermark hl => exact h.visible c ts (by rw [hl]; exact hc) e he
  | prune hl => exact h.visible c ts (by rw [hl]; exact hc) e he
  | @createLog o hl =>
      cases o with
      | none => cases hc
      | some x =>
          cases hc
          exact h.visible _ _ (by rw [hl]; rfl) e he
  | set | commit | stamp | appendBegin | appendBatch | refuse | appendCommit | appendFails | put
  | record | finish | freeze | createLogFails | freezeFails | swap => cases hc
  | _ => exact h.visible c ts hc e he

theorem step (h : p.Placed d) (ho : p.Ordered d rest) (hset : p.Settled) (hfd : p.Filed d)
    (hs : Step d p a o d' p') : p'.Placed d' :=
  ⟨h.put_step ho hset hs, h.log_step ho.ids hs, h.fresh_step ho.ids hs,
    h.durable_step ho.ids hfd hs, h.finished_step ho hs⟩

end Placed

/-! ### Opening -/

/-- The logs that a process is opened on are not those of its memtable. -/
theorem notRecords_new {l : Log} (h : openDb (d.wal.map Log.file) d.ss = .ok p)
    (hl : l ∈ (d.addLog p.state.memTable).wal) (hid : l.id = p.state.memTable) : ¬ l.Records x := by
  obtain ⟨restored, storage, _, _, rfl⟩ := openDb_eq h
  cases List.mem_append.mp hl with
  | inl hl =>
      have hle := le_latestId (List.mem_map_of_mem (f := Log.file) hl)
      exact absurd hid (Nat.lt_succ_of_le hle).ne
  | inr hl =>
      rw [List.mem_singleton.mp hl]
      rintro ⟨s, hs, _⟩
      cases hs

theorem placed_open (h : openDb (d.wal.map Log.file) d.ss = .ok p) :
    p.Placed (d.addLog p.state.memTable) := by
  have hnew := fun l hl hid x => notRecords_new (l := l) (x := x) h hl hid
  obtain ⟨restored, storage, _, _, rfl⟩ := openDb_eq h
  exact ⟨(fun _ _ _ hc => nomatch hc), fun l hl hid x hx => absurd hx (hnew l hl hid x),
    (fun _ _ hid => nomatch hid), (fun _ _ hc => nomatch hc), fun _ _ hc => nomatch hc⟩

theorem filed_open (h : openDb (d.wal.map Log.file) d.ss = .ok p) :
    p.Filed (d.addLog p.state.memTable) := by
  obtain ⟨restored, storage, _, hl, rfl⟩ := openDb_eq h
  exact ⟨fun f hf => DiskStorage.id_lt_of_load hl hf, fun _ hc => nomatch hc⟩

/-- A version that can be read from the files is taken over. -/
theorem Opened.kept (h : Opened d p) (hF : Files d) (hk : d.Kept x) :
    p.Kept (d.addLog p.state.memTable) x := by
  cases hk with
  | inl hk => exact .inl (hk.mono fun _ hf => hf)
  | inr hk =>
      obtain ⟨l, hl, hx⟩ := hk
      have hid : l.id ∈ p.state.frozen := by
        rw [h.frozen]
        exact List.mem_map_of_mem (List.mem_reverse.mpr hl)
      refine .inr ⟨l, List.mem_append_left _ hl, List.mem_cons_of_mem _ hid, ?_, ?_⟩
      · obtain ⟨e, he, rfl⟩ := hx
        obtain ⟨s, hs, he⟩ := List.mem_flatMap.mp (List.mem_of_find?_eq_some (mem_new_putAll.mp he))
        obtain ⟨y, hy, rfl⟩ := List.mem_map.mp he
        exact ⟨s, hs, y, hy, by simp [Entry.version, Entry.stored]⟩
      · rwa [h.mems_frozen hF hl]

omit [Crc32] in
/-- A version in a log and its memtable can be read from the log. -/
theorem layer_of_matches {l : Log} {t : MemTable} {es : List Entry} (h : l.Matches t es)
    (hr : l.Records x) (hx : x ∈ layer t.entries) : x ∈ l.layer := by
  obtain ⟨s, hs, e, he, rfl⟩ := hr
  obtain ⟨w, hw, hwe⟩ := hx
  have hcom : e.stored ∈ committed l.sets := by
    exact List.mem_flatMap.mpr ⟨s, hs, List.mem_map_of_mem he⟩
  obtain ⟨y, hy⟩ : ∃ y, (committed l.sets).find? (fun y => y.1 = e.1) = some y :=
    Option.isSome_iff_exists.mp (List.find?_isSome.mpr ⟨e.stored, hcom, by simp [Entry.stored]⟩)
  have hye : y.1 = e.1 := by simpa using List.find?_some hy
  have hmem : y ∈ l.memTable.entries := mem_new_putAll.mpr (hye ▸ hy)
  -- the memtable has one entry with this key, and the log has it too
  have hput : y ∈ t.entries.map Entry.stored := by
    rw [h]
    exact MemTable.mem_putAll.mpr (.inl hmem)
  obtain ⟨z, hz, rfl⟩ := List.mem_map.mp hput
  have hkey : z.1 = w.1 := by
    have hwk : w.1 = e.1 := Key.eq_of_user_seq (congrArg Prod.fst hwe) (congrArg (·.2.1) hwe)
    exact hye.trans hwk.symm
  have hzw := t.sorted.eq_of_key hz hw hkey
  refine ⟨_, hmem, ?_⟩
  rw [← hwe, hzw]
  simp [Entry.stored]

theorem Kept.crash (h : p.Kept d x) (hA : p.Attached d) : d.Kept x := by
  refine h.imp_right fun ⟨l, hl, hid, hr, hx⟩ => ⟨l, hl, ?_⟩
  cases List.mem_cons.mp hid with
  | inl hid => exact layer_of_matches (hA.active l hl hid).1 hr hx
  | inr hid => exact layer_of_matches (hA.frozen l hl (List.mem_append_left _ hid)) hr hx

end Process

end LowDB
