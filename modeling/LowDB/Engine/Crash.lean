import LowDB.Storage.Directory
import LowDB.Engine.Failures
import LowDB.Engine.Progress

/-! # Crashes

A process may end between any two actions.  In every run in which no I/O operation fails, and which
opens only tables with an index of less than `2^32` bytes, the next opening succeeds, `DB::get` returns
the newest version whose commit record has been written, and what a commit has acknowledged is kept
(`crash_recovery`).  A table with a longer index can be written, and then `DB::open` fails
(`crash_recovery_wide`). -/

namespace LowDB

open Layered

/-! ### Acknowledged commits -/

namespace CommitLock

/-- The commit under way, once its commit record is written. -/
def durable : CommitLock → Option (Commit × ℕ)
  | «sealed» c ts | recorded c ts | published c ts | watermarked c ts _ | pruned c ts => some (c, ts)
  | created o _ => o
  | _ => none

end CommitLock

/-- The versions of the commit under way are committed, once its record is written. -/
def Process.Recorded (d : Dir) (p : Process) : Prop :=
  ∀ c ts, p.commit.durable = some (c, ts) → ∀ e ∈ c.buffer.batch ts, e.version ∈ d.hist

section recorded
variable [Crc32] {P : Sys → Act → Prop} {s t u : Sys} {d d' : Dir} {p p' : Process} {a : Act} {o : Out}

/-- Commit records are only added. -/
theorem hist_of_step (hs : Step d p a o d' p') : d.hist ⊆ d'.hist := by
  cases hs with
  | appendCommit => exact List.subset_append_left _ _
  | _ => exact fun _ h => h

theorem Run.hist (h : Run P s t) : s.dir.hist ⊆ t.dir.hist := by
  induction h with
  | refl => exact fun _ h => h
  | tail _ _ hs ih =>
      apply List.Subset.trans ih
      cases sysStep_of_eq hs with
      | opened => exact fun _ h => h
      | notOpened => exact fun _ h => h
      | crash => exact fun _ h => h
      | step hst => exact hist_of_step hst

theorem Process.Recorded.step (h : p.Recorded d) (hs : Step d p a o d' p') : p'.Recorded d' := by
  have hold : ∀ {c}, p.commit = c → (c.durable = p'.commit.durable) → p'.Recorded d' := by
    rintro c rfl he c ts hc e hm
    exact hist_of_step hs (h c ts (he.trans hc) e hm)
  have hnone : p'.commit.durable = none → p'.Recorded d' := by
    intro hn c ts hc
    rw [hn] at hc
    cases hc
  cases hs with
  | set => exact hnone rfl
  | commit => exact hnone rfl
  | stamp => exact hnone rfl
  | appendBegin => exact hnone rfl
  | appendBatch => exact hnone rfl
  | refuse => exact hnone rfl
  | appendCommit =>
      intro c ts hc e he
      cases hc
      exact List.mem_append_right _ (List.mem_map_of_mem he)
  | appendFails => exact hnone rfl
  | put => exact hnone rfl
  | record hc => exact hold hc rfl
  | publish hc => exact hold hc rfl
  | watermark hc => exact hold hc rfl
  | prune hc => exact hold hc rfl
  | finish => exact hnone rfl
  | freeze => exact hnone rfl
  | @createLog o hc =>
      cases o with
      | none => exact hnone rfl
      | some x => exact hold hc rfl
  | createLogFails => exact hnone rfl
  | freezeFails => exact hnone rfl
  | swap => exact hnone rfl
  | _ => exact hold rfl rfl

theorem Run.recorded (h : Reach P s) : s.Holds (fun _ => True) fun d p => p.Recorded d := by
  refine h.holds (fun d p _ _ _ ho c ts hc => ?_) (fun _ _ _ => trivial)
    (fun _ _ _ _ _ _ _ _ hp hs => hp.step hs) trivial
  obtain ⟨_, _, _, _, rfl⟩ := Process.openDb_eq ho
  cases hc

/-- A commit returns once its commit record is written, or if it writes nothing. -/
theorem recorded_of_acknowledged (hs : Step d p a (.committed (.ok ())) d' p') :
    (∃ i r, a = .commit i ∧ p.reader i = some r ∧ r.buffer.isEmpty) ∨
      ∃ c ts, p.commit.durable = some (c, ts) := by
  generalize ho : Out.committed (.ok ()) = o at hs
  cases hs with
  | commitEmpty hr _ _ _ hb => exact .inl ⟨_, _, rfl, hr, hb⟩
  | finish hc => exact .inr ⟨_, _, by rw [hc]; rfl⟩
  | @swap o _ hc =>
      cases o with
      | none => cases ho
      | some x => exact .inr ⟨x.1, x.2, by rw [hc]; rfl⟩
  | _ => cases ho

end recorded

/-- **Crash recovery**: where no I/O operation fails and the tables opened have an index of less than
`2^32` bytes, the next opening succeeds, in every state of a process `DB::get` returns the newest version
whose commit record has been written, and the versions of a commit that has returned stay committed. -/
theorem crash_recovery [Crc32] {s : Sys} (h : Reach Calm s) :
    (s.Holds (fun d => d.Opens → d.OpensOk) fun d p => p.Current d) ∧
      ∀ t u a, Reach Calm t → step t a = some (u, .committed (.ok ())) → Run Calm u s →
        ∃ p, t.proc = some p ∧
          ((∃ i r, a = .commit i ∧ p.reader i = some r ∧ r.buffer.isEmpty) ∨
            ∃ c ts, p.commit.durable = some (c, ts) ∧
              ∀ e ∈ c.buffer.batch ts, e.version ∈ s.dir.hist) := by
  refine ⟨h.current_of_consistent (fun _ => Run.consistent_calm) fun _ ha => ha.2 rfl, ?_⟩
  intro t u a ht hu hrun
  have hrec := ht.recorded
  cases sysStep_of_eq hu with
  | @step d d' p p' _ _ hs =>
      refine ⟨p, rfl, (recorded_of_acknowledged hs).imp_right ?_⟩
      rintro ⟨c, ts, hc⟩
      exact ⟨c, ts, hc, fun e he => hrun.hist (hist_of_step hs (hrec c ts hc e he))⟩

/-- The process ends after the commit record is written and before the commit is published. -/
def crashRecoveryOnce : Option (Sys × Process) := do
  let s ← @exec crc32 (@Calm crc32) _ .init ([Act.open] ++ setActs keyK textOne ++
    [Act.set keyK textTwo, .stamp, .append, .append, .put, .append, .crash, .open])
  let p ← s.proc
  match p.commit, s.dir.hist.length with
  | .free, 2 => return (s, p)
  | _, _ => none

theorem crash_recovery_once : ∃ (s : Sys) (p : Process), s.proc = some p ∧ s.dir.hist.length = 2 ∧
    (p.commit.openTs = none ∧ @Process.Current crc32 s.dir p) := by
  have h : crashRecoveryOnce.isSome := by decide +kernel
  obtain ⟨⟨s, p⟩, h⟩ := Option.isSome_iff_exists.mp h
  unfold crashRecoveryOnce at h
  simp only [bind, Option.bind_eq_some_iff] at h
  obtain ⟨_, hs, _, hp, he⟩ := h
  split at he
  case h_2 => cases he
  case h_1 hc hl =>
    cases he
    have hrec := (@crash_recovery crc32 s (@reach_of_exec crc32 _ _ _ _ hs)).1
    obtain ⟨d, _⟩ := s
    cases hp
    exact ⟨⟨d, some p⟩, p, rfl, hl, by rw [hc]; rfl, hrec⟩

/-! ### A table that cannot be opened -/

/-- With no handle in use, a commit leaves nothing in the map of recent writes. -/
theorem Oracle.recent_prune {o : Oracle} (h : ∀ k, o.recent k = none) {b : Buffer} {ts : ℕ} (k : Str) :
    (((o.record b ts).publish ts).prune ts).recent k = none := by
  show (if k ∈ b.keys then some ts else o.recent k).filter (fun t => ts < t) = none
  split_ifs
  · simp
  · rw [h k]
    rfl

/-- The process on an empty directory, after the first key is set. -/
theorem run_first [Crc32] : ∃ d p, Reach Calm ⟨d, some p⟩ ∧ d.refused = false ∧ p.commit = .free ∧
    p.flush = .free ∧ p.state = ⟨1, []⟩ ∧ p.nextWal = 2 ∧ p.readers = [] ∧
    p.oracle.nextSeq = 3 ∧ (∀ k, p.oracle.recent k = none) ∧
    ∃ e : Entry, (p.mems 1).entries = [e] ∧ e.1.user = wideKey 0 ∧ e.2 = .set .empty := by
  let p₀ : Process := .fresh 1 ⟨[], 0, 0⟩ ⟨1, 0, []⟩
  have hopen : Reach Calm ⟨(Dir.mk [] [] [] false).addLog 1, some p₀⟩ :=
    Run.refl.tail (a := .open) (o := .opened (.ok ())) ⟨rfl, fun _ => ⟨rfl, fun _ h => nomatch h⟩⟩ rfl
  let c : Commit := ⟨1, none, .single (wideKey 0) (.set .empty)⟩
  have hset : Reach Calm ⟨(Dir.mk [] [] [] false).addLog 1,
      some { p₀ with oracle := p₀.oracle.nextTxId, commit := .checked c }⟩ :=
    hopen.act (a := .set (wideKey 0) .empty) (o := .nothing) rfl rfl
  have hfit : (WalCmd.batch c.tx (c.buffer.batch 2)).Fits := by
    refine ⟨by decide, ?_⟩
    intro e he
    cases List.mem_singleton.mp he
    exact (wide_of_key rfl rfl).1
  obtain ⟨d, hr, -, hd⟩ := Process.run_through hset rfl (by decide) hfit
  have hfinish := hr.act (a := .finish) (o := .committed (.ok ())) rfl rfl
  refine ⟨d, _, hfinish, hd, rfl, rfl, rfl, rfl, rfl, rfl, ?_, (⟨wideKey 0, 2⟩, .set .empty), rfl, rfl,
    rfl⟩
  exact Oracle.recent_prune (o := p₀.oracle.nextTxId.nextTs) (fun _ => rfl)

/-- The buffer of the transaction that follows. -/
def wideBuffer (n : ℕ) : Buffer := (wideKeys n).foldl (fun b k => b.insert k (.set .empty)) .empty

theorem mem_wideBuffer {n : ℕ} {u : Str} : u ∈ (wideBuffer n).keys ↔ u ∈ wideKeys n :=
  Buffer.mem_keys_foldl.trans (or_iff_left List.not_mem_nil)

theorem value_wideBuffer {n : ℕ} : ∀ x ∈ (wideBuffer n).entries, x.2 = .set .empty :=
  Buffer.value_foldl fun _ h => absurd h List.not_mem_nil

theorem length_wideBuffer {n : ℕ} (h : n < 2 ^ 16) : (wideBuffer n).entries.length = n := by
  have hn : (wideKeys n).Nodup := (List.nodup_cons.mp (nodup_wideKeys (by omega))).2
  have hperm : (wideBuffer n).keys.Perm (wideKeys n) :=
    (List.perm_ext_iff_of_nodup (wideBuffer n).nodup_keys hn).mpr fun _ => mem_wideBuffer
  have hl := hperm.length_eq
  unfold Buffer.keys wideKeys at hl
  rwa [List.length_map, List.length_map, List.length_range] at hl

theorem wideBuffer_fits {n ts : ℕ} {tx : UInt64} (h : n < 2 ^ 16) :
    (WalCmd.batch tx ((wideBuffer n).batch ts)).Fits := by
  constructor
  · unfold Buffer.batch
    rwa [List.length_map, length_wideBuffer h]
  · intro e he
    obtain ⟨x, hx, rfl⟩ := List.mem_map.mp he
    obtain ⟨i, -, hi⟩ := List.mem_map.mp (mem_wideBuffer.mp (List.mem_map_of_mem hx))
    exact (wide_of_key hi.symm (value_wideBuffer x hx)).1

/-- The transaction, up to the look at the size of the memtable. -/
theorem run_second [Crc32] {n : ℕ} (h₀ : 0 < n) (h : n < 2 ^ 16) : ∃ d p c ts, Reach Calm ⟨d, some p⟩ ∧
    d.refused = false ∧ p.commit = .pruned c ts ∧ p.flush = .free ∧ p.state = ⟨1, []⟩ ∧
    p.nextWal = 2 ∧ (∀ u, u ∈ wideKey 0 :: wideKeys n ↔ ∃ e ∈ (p.mems 1).entries, e.1.user = u) ∧
    ∀ e ∈ (p.mems 1).entries, e.2 = .set .empty := by
  obtain ⟨d, p, hr, hd, hc, hfl, hst, hw, hrs, hseq, hrec, e, he, hk, hv⟩ := run_first
  have htx := hr.act (a := .transaction) rfl rfl
  let q : Process := { p with oracle := p.oracle.begin.nextTxId }
  let r : Reader := .started (.transaction (UInt64.ofNat p.oracle.txId)) p.oracle.visible
  have hcapture : (q.withReader (some r)).step d (.capture q.readers.length) =
      some (d, q.withReader (some { r with state := some q.state }), .nothing) := by
    show (q.withReader (some r)).capture d q.readers.length = _
    unfold Process.capture
    rw [Process.reader_withReader]
    simp only [r, Reader.started, Process.setReader_withReader]
    rfl
  have hwrites := Process.run_writes (wideKeys n) (v := .set .empty) (htx.act hcapture rfl) rfl rfl rfl
  have hne : (wideBuffer n).isEmpty = false := by
    have hl := length_wideBuffer h
    unfold Buffer.isEmpty
    rw [List.isEmpty_eq_false_iff]
    rintro hnil
    rw [hnil] at hl
    exact h₀.ne hl
  have hcommit := Process.run_commit hwrites rfl rfl rfl hne hc hrec
  obtain ⟨d', hthrough, -, hd'⟩ := Process.run_through hcommit rfl (hseq.trans_lt (by decide))
    (wideBuffer_fits h)
  have husers : ∀ u, u ∈ wideKeys n ↔
      ∃ x ∈ (wideBuffer n).batch p.oracle.nextSeq, x.1.user = u := by
    intro u
    rw [← mem_wideBuffer]
    unfold Buffer.keys Buffer.batch
    simp
  have hmem : (∀ u, u ∈ wideKey 0 :: wideKeys n ↔
      ∃ x ∈ ((p.mems 1).putAll ((wideBuffer n).batch p.oracle.nextSeq)).entries, x.1.user = u) ∧
        ∀ x ∈ ((p.mems 1).putAll ((wideBuffer n).batch p.oracle.nextSeq)).entries,
          x.2 = .set .empty := by
    constructor
    · intro u
      rw [MemTable.users_putAll, he, List.mem_cons, husers, ← hk]
      simp [eq_comm]
    · intro x hx
      cases MemTable.mem_of_putAll hx with
      | inl hx =>
          rw [he] at hx
          rw [List.mem_singleton.mp hx, hv]
      | inr hx =>
          obtain ⟨y, hy, rfl⟩ := List.mem_map.mp hx
          exact value_wideBuffer y hy
  have hmems : Function.update p.mems p.state.memTable ((p.mems p.state.memTable).putAll
      ((wideBuffer n).batch p.oracle.nextSeq)) 1 =
        (p.mems 1).putAll ((wideBuffer n).batch p.oracle.nextSeq) := by
    rw [hst, Function.update_self]
  rw [← hmems] at hmem
  exact ⟨d', _, _, _, hthrough, hd'.trans hd, rfl, hfl, hst, hw, hmem⟩

/-- Files with a table whose metadata cannot be read are not opened. -/
theorem openSys_error [Crc32] {d : Dir} {f : TableFile} {e : DbError} (hf : f ∈ d.ss)
    (he : SSTableMeta.read f.bytes = .error e) :
    ∃ e', openSys d = (⟨d, none⟩, .opened (.error e')) := by
  cases ho : Process.openDb (d.wal.map Log.file) d.ss with
  | error e' =>
      refine ⟨e', ?_⟩
      unfold openSys
      rw [ho]
  | ok p =>
      obtain ⟨_, _, _, hl, _⟩ := Process.openDb_eq ho
      obtain ⟨t, -, hopen⟩ := DiskStorage.mem_load hl f hf
      rw [openTable, he] at hopen
      cases hopen

/-- **A table that cannot be opened**: a table is written whose index has `2^32 + 2^16` bytes, and
after that `DB::open` fails. -/
theorem crash_recovery_wide : ∃ s : Sys, @Reach crc32 (@Calm crc32) s ∧ s.proc = none ∧
    s.dir.refused = false ∧ ∃ e, @openSys crc32 s.dir = (s, .opened (.error e)) := by
  let _ := crc32
  have hn : (2 : ℕ) ^ 16 - 1 < 2 ^ 16 := by decide
  obtain ⟨d, p, c, ts, hr, hd, hc, hfl, hst, hw, husers, hvals⟩ := run_second (n := 2 ^ 16 - 1)
    (by decide) hn
  have hwide : ∀ e ∈ (p.mems 1).entries, e.Fits ∧ e.Wide ∧ e.1.diskSize = 65527 := by
    intro e he
    obtain ⟨i, hi⟩ : ∃ i, e.1.user = wideKey i := by
      cases List.mem_cons.mp ((husers e.1.user).mpr ⟨e, he, rfl⟩) with
      | inl h => exact ⟨0, h⟩
      | inr h =>
          obtain ⟨i, -, h⟩ := List.mem_map.mp h
          exact ⟨i + 1, h.symm⟩
    exact wide_of_key hi (hvals e he)
  have hlen : (newest (p.mems 1).entries).length = 2 ^ 16 := by
    rw [length_newest (p.mems 1).sorted (nodup_wideKeys (by omega)) husers]
    unfold wideKeys
    rw [List.length_cons, List.length_map, List.length_range]
    rfl
  have hne : (p.mems 1).entries ≠ [] := by
    rintro hnil
    rw [hnil] at hlen
    cases hlen
  obtain ⟨file, m, hwrite, e, hread⟩ := writeL0_wide (fun e he => (hwide e he).1)
    (fun e he => (hwide e he).2.1) (fun e he => (hwide e he).2.2) hne (by rw [hlen]; decide)
    (by rw [hlen]; decide)
  have hmems : Function.update p.mems p.nextWal (.new p.nextWal) 1 = p.mems 1 := by
    rw [hw]
    exact Function.update_of_ne (by decide) _ _
  obtain ⟨d', hr', hd', f, hf, hbytes⟩ := Process.run_writeTable 1 (Process.run_freeze hr hc) hfl
    (by rw [hst]; rfl) (hmems ▸ hwrite)
  obtain ⟨e', he'⟩ := openSys_error hf (hbytes ▸ hread)
  exact ⟨⟨d', none⟩, hr', rfl, hd'.trans hd, e', he'⟩

end LowDB
