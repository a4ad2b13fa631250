import LowDB.Storage.Replay
import LowDB.Wal.Grammar

/-! # Restoring arbitrary log files

`Wal::restore` on log files with any bytes.  A file is `Restorable` when it consists of whole records, no
`TxBegin` names an open transaction and no `TxCommit` one that is not open; otherwise it is
`Rejected`, with the error of the first thing in it that is wrong.

The main result is `restore_iff`: restoring succeeds exactly if all files are restorable, with a memtable
of its committed versions for each, and the error is otherwise that of the first bad file, newest
first. -/

namespace LowDB

open WalReader

/-! ### One file -/

/-- After the records `pre` the record is refused, with the error `e`. -/
def Refused (pre : List WalCmd) (c : WalCmd) (e : DbError) : Prop :=
  (∃ tx, c = .txBegin tx ∧ OpenAfter pre tx ∧
      e = .invalidState s!"corrupted WAL; duplicate transaction id: '{tx}'") ∨
    ∃ tx, c = .txCommit tx ∧ ¬ OpenAfter pre tx ∧
      e = .invalidState s!"corrupted WAL; unknown transaction commit: '{tx}'"

/-- The bytes are the records `cs`, each of them in place. -/
def Restorable (bs : Bytes) (cs : List WalCmd) : Prop :=
  ∃ rs : List RawCmd, bs = rs.flatMap RawCmd.encode ∧ rs.map RawCmd.cmd = cs ∧ ¬ Malformed cs

/-- Records in place, and then a refused record or no record, with the error `e`. -/
def Rejected (bs : Bytes) (e : DbError) : Prop :=
  ∃ (rs : List RawCmd) (tail : Bytes), bs = rs.flatMap RawCmd.encode ++ tail ∧
    ¬ Malformed (rs.map RawCmd.cmd) ∧
    (Broken tail e ∨ ∃ (r : RawCmd) (rest : Bytes), tail = r.encode ++ rest ∧
      Refused (rs.map RawCmd.cmd) r.cmd e)

theorem exists_refused {pre : List WalCmd} {c : WalCmd} (h : Misplaced pre c) :
    ∃ e, Refused pre c e := by
  rcases h with ⟨tx, rfl, ho⟩ | ⟨tx, rfl, ho⟩
  · exact ⟨_, .inl ⟨tx, rfl, ho, rfl⟩⟩
  · exact ⟨_, .inr ⟨tx, rfl, ho, rfl⟩⟩

theorem not_malformed_nil : ¬ Malformed [] := by
  rintro ⟨pre, c, post, he, -⟩
  exact absurd he.symm (by simp)

/-- The first misplaced record of raw records. -/
theorem exists_first_misplaced {rs : List RawCmd} (h : Malformed (rs.map RawCmd.cmd)) :
    ∃ pre r post, rs = pre ++ r :: post ∧ ¬ Malformed (pre.map RawCmd.cmd) ∧
      Misplaced (pre.map RawCmd.cmd) r.cmd := by
  induction rs using List.reverseRecOn with
  | nil => exact absurd h not_malformed_nil
  | append_singleton rs r ih =>
      by_cases hrs : Malformed (rs.map RawCmd.cmd)
      · obtain ⟨pre, r', post, rfl, hm, hmis⟩ := ih hrs
        exact ⟨pre, r', post ++ [r], by simp, hm, hmis⟩
      · rw [List.map_append, List.map_singleton, malformed_concat] at h
        exact ⟨rs, r, [], rfl, hrs, h.resolve_left hrs⟩

/-- Any bytes are restorable or rejected. -/
theorem restorable_or_rejected (bs : Bytes) : (∃ cs, Restorable bs cs) ∨ ∃ e, Rejected bs e := by
  obtain ⟨rs, tail, rfl, htail⟩ := exists_records bs
  by_cases hm : Malformed (rs.map RawCmd.cmd)
  · obtain ⟨pre, r, post, rfl, hpre, hmis⟩ := exists_first_misplaced hm
    obtain ⟨e, he⟩ := exists_refused hmis
    exact .inr ⟨e, pre, r.encode ++ (post.flatMap RawCmd.encode ++ tail), by simp, hpre,
      .inr ⟨r, _, rfl, he⟩⟩
  · rcases htail with rfl | ⟨e, he⟩
    · exact .inl ⟨_, rs, List.append_nil _, rfl, hm⟩
    · exact .inr ⟨e, rs, tail, rfl, hm, .inl he⟩

/-- The variables of the loop at the start of a log. -/
theorem read_start (id : ℕ) (acc : Restored) : Replay.Read id {acc.maxSeq} {acc.maxTxId} []
    ⟨.new id, fun _ => none, acc.maxSeq, acc.maxTxId⟩ :=
  .start rfl isGreatest_singleton isGreatest_singleton

/-- A record that is refused ends the replay. -/
theorem Replay.Read.refused {id : ℕ} {S T : Set ℕ} {pre : List WalCmd} {c : WalCmd} {r : Replay}
    {e : DbError} (h : r.Read id S T pre) (hr : Refused pre c e) : r.step c = .error e := by
  rcases hr with ⟨tx, rfl, ho, rfl⟩ | ⟨tx, rfl, ho, rfl⟩
  · rw [Replay.step, h.txs tx ho]
    rfl
  · rw [Replay.step, h.closed tx ho]

theorem Restorable.readAll {bs : Bytes} {cs : List WalCmd} (h : Restorable bs cs) :
    WalReader.readAll bs = .ok cs := by
  obtain ⟨rs, rfl, rfl, -⟩ := h
  exact readAll_rawEncode rs

theorem Restorable.not_malformed {bs : Bytes} {cs : List WalCmd} (h : Restorable bs cs) :
    ¬ Malformed cs := by
  obtain ⟨_, -, -, hm⟩ := h
  exact hm

theorem restoreLog_rejected {wal : LogFile} {e : DbError} (h : Rejected wal.2 e) (acc : Restored) :
    restoreLog acc wal = .error e := by
  obtain ⟨rs, tail, hbs, hm, htail⟩ := h
  rcases (read_start wal.1 acc).foldlM not_malformed_nil (rs.map RawCmd.cmd) with
    ⟨r, hr, -, hread⟩ | ⟨msg, -, hm'⟩
  · rw [List.nil_append] at hread
    have hlast : foldLog Replay.step r tail = .error e := by
      rcases htail with hb | ⟨x, rest, rfl, href⟩
      · exact foldLog_error (next_broken hb)
      · rw [foldLog_step (next_rawEncode x rest), hread.refused href]
        rfl
    rw [restoreLog, hbs, foldLog_rawEncode, hr]
    exact congrArg (fun x => x >>= _) hlast
  · exact absurd hm' hm

/-! ### All files -/

section files
variable {wals : List LogFile} {wal : LogFile} {e : DbError}

theorem restoreTables_restorable (h : ∀ wal ∈ wals, ∃ cs, Restorable wal.2 cs) :
    ∃ r, restoreTables wals = .ok r ∧
      List.Forall₂ (fun wal t => ∃ cs, Restorable wal.2 cs ∧ Replayed wal.1 cs t) wals r.tables := by
  suffices hgen : ∀ acc : Restored, ∃ r ts, wals.foldlM restoreLog acc = .ok r ∧
      r.tables = acc.tables ++ ts ∧
      List.Forall₂ (fun wal t => ∃ cs, Restorable wal.2 cs ∧ Replayed wal.1 cs t) wals ts by
    obtain ⟨r, ts, hr, ht, hts⟩ := hgen ⟨[], 0, 0⟩
    obtain rfl : r.tables = ts := ht
    exact ⟨r, hr, hts⟩
  induction wals with
  | nil => exact fun acc => ⟨acc, [], rfl, (List.append_nil _).symm, .nil⟩
  | cons wal wals ih =>
      intro acc
      obtain ⟨⟨cs, hcs⟩, hwals⟩ := List.forall_mem_cons.mp h
      rcases (read_start wal.1 acc).foldlM not_malformed_nil cs with ⟨x, hx, -, hread⟩ | ⟨msg, -, hm⟩
      · obtain ⟨r, ts, hr, ht, hts⟩ := ih hwals ⟨acc.tables ++ [x.table], x.maxSeq, x.maxTxId⟩
        refine ⟨r, x.table :: ts, ?_, by rw [ht, List.append_assoc]; rfl,
          .cons ⟨cs, hcs, hread.replayed hcs.not_malformed⟩ hts⟩
        rw [List.foldlM_cons, restoreLog, foldLog_of_readAll hcs.readAll, hx]
        exact hr
      · exact absurd hm hcs.not_malformed

theorem restoreTables_rejected {pre post : List LogFile} (h : ∀ w ∈ pre, ∃ cs, Restorable w.2 cs)
    (hw : Rejected wal.2 e) : restoreTables (pre ++ wal :: post) = .error e := by
  obtain ⟨r, hr, -⟩ := restoreTables_restorable h
  have hr : pre.foldlM restoreLog ⟨[], 0, 0⟩ = Except.ok r := hr
  rw [restoreTables, List.foldlM_append, hr]
  show (wal :: post).foldlM restoreLog r = _
  rw [List.foldlM_cons, restoreLog_rejected hw]
  rfl

theorem restore_rejected {dir pre post : List LogFile} (hw : loadWals dir = pre ++ wal :: post)
    (hpre : ∀ w ∈ pre, ∃ cs, Restorable w.2 cs) (hrej : Rejected wal.2 e) : restore dir = .error e := by
  rw [restore, hw, restoreTables_rejected hpre hrej]

/-- The first rejected file, if not all are restorable. -/
theorem exists_first_rejected (h : ¬ ∀ wal ∈ wals, ∃ cs, Restorable wal.2 cs) :
    ∃ pre wal post e, wals = pre ++ wal :: post ∧ (∀ w ∈ pre, ∃ cs, Restorable w.2 cs) ∧
      Rejected wal.2 e := by
  induction wals with
  | nil => exact absurd (fun _ h => absurd h List.not_mem_nil) h
  | cons w wals ih =>
      rcases restorable_or_rejected w.2 with hs | ⟨e, he⟩
      · obtain ⟨pre, wal, post, e, rfl, hpre, hw⟩ :=
          ih fun hall => h (List.forall_mem_cons.mpr ⟨hs, hall⟩)
        exact ⟨w :: pre, wal, post, e, rfl, List.forall_mem_cons.mpr ⟨hs, hpre⟩, hw⟩
      · exact ⟨[], w, wals, e, rfl, fun _ h => absurd h List.not_mem_nil, he⟩

end files

/-- **Restoring arbitrary log files**: all of them are restorable and each gives a memtable with its committed
versions, or the error is that of the first one that is rejected. -/
theorem restore_iff (dir : List LogFile) :
    ((∃ r, restore dir = .ok r) ↔ ∀ wal ∈ dir, ∃ cs, Restorable wal.2 cs) ∧
      (∀ r, restore dir = .ok r →
        List.Forall₂ (fun wal t => ∃ cs, Restorable wal.2 cs ∧ Replayed wal.1 cs t)
          (loadWals dir) r.tables) ∧
      ∀ e, restore dir = .error e ↔ ∃ pre wal post, loadWals dir = pre ++ wal :: post ∧
        (∀ w ∈ pre, ∃ cs, Restorable w.2 cs) ∧ Rejected wal.2 e := by
  have hperm : ∀ wal, wal ∈ loadWals dir ↔ wal ∈ dir := fun wal =>
    (List.perm_insertionSort _ dir).mem_iff
  have hall : (∀ wal ∈ dir, ∃ cs, Restorable wal.2 cs) ↔
      ∀ wal ∈ loadWals dir, ∃ cs, Restorable wal.2 cs :=
    forall_congr' fun wal => imp_congr_left (hperm wal).symm
  rw [hall]
  by_cases h : ∀ wal ∈ loadWals dir, ∃ cs, Restorable wal.2 cs
  · obtain ⟨r, hr, hts⟩ := restoreTables_restorable h
    have hr : restore dir = .ok r := hr
    refine ⟨iff_of_true ⟨r, hr⟩ h, fun r' hr' => ?_, fun e => iff_of_false ?_ ?_⟩
    · cases hr.symm.trans hr'
      exact hts
    · rw [hr]
      exact fun he => by cases he
    · rintro ⟨pre, wal, post, hw, hpre, hrej⟩
      cases hr.symm.trans (restore_rejected hw hpre hrej)
  · obtain ⟨pre, wal, post, e, hw, hpre, hrej⟩ := exists_first_rejected h
    have he := restore_rejected hw hpre hrej
    refine ⟨iff_of_false ?_ h, fun r hr => ?_, fun e' => ⟨fun he' => ?_, ?_⟩⟩
    · rintro ⟨r, hr⟩
      cases he.symm.trans hr
    · cases he.symm.trans hr
    · cases he.symm.trans he'
      exact ⟨pre, wal, post, hw, hpre, hrej⟩
    · rintro ⟨pre', wal', post', hw', hpre', hrej'⟩
      exact restore_rejected hw' hpre' hrej'

end LowDB
