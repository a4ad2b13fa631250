import Mathlib.Data.List.Sort
import LowDB.MemTable
import LowDB.Wal.Writer

/-! # Replaying logs

`storage/src/wal.rs`: the directory of logs and `restore_tables`.  Each log becomes one memtable
with the writes of the transactions whose commit record it holds, in commit order; the newest log
comes first.

A log that `Storage::set_batch` has written consists of whole triples of records, and possibly of
the first one or two records of a triple that a crash has cut off (`logOf`); `replay_logOf` is what
replay makes of it.  The main result is `restore_take_iff`: of such a log cut at an arbitrary byte,
`restore` returns the committed writes exactly if the cut is at the end of a record. -/

namespace LowDB

/-- A log file: the id that is its name, and its bytes. -/
abbrev LogFile := ℕ × Bytes

structure Restored where
  tables : List MemTable
  maxSeq : ℕ
  maxTxId : ℕ

/-- The variables of `restore_tables` while it reads one log. -/
structure Replay where
  table : MemTable
  txs : UInt64 → Option MemTable
  maxSeq : ℕ
  maxTxId : ℕ

/-- One round of the loop over a log. -/
def Replay.step (r : Replay) : WalCmd → DbResult Replay
  | .txBegin tx =>
    if (r.txs tx).isSome then
      .error (.invalidState s!"corrupted WAL; duplicate transaction id: '{tx}'")
    else .ok { r with
      txs := Function.update r.txs tx (some (.new 0))
      maxTxId := max r.maxTxId tx.toNat }
  | .txCommit tx =>
    match r.txs tx with
    | none => .error (.invalidState s!"corrupted WAL; unknown transaction commit: '{tx}'")
    | some values => .ok { r with
        table := r.table.putAll values.iter
        txs := Function.update r.txs tx none }
  | .op tx key value =>
    match r.txs tx with
    | none => .ok r
    | some values => .ok { r with
        txs := Function.update r.txs tx (some (values.put key value))
        maxSeq := max r.maxSeq key.seq.toNat }
  | .batch tx batch =>
    match r.txs tx with
    | none => .ok r
    | some values => .ok { r with
        txs := Function.update r.txs tx (some (values.putAll batch))
        maxSeq := maxSeqOf r.maxSeq batch }

/-- The body of the loop over the logs. -/
def restoreLog (acc : Restored) (wal : LogFile) : DbResult Restored := do
  let r ← WalReader.foldLog Replay.step ⟨.new wal.1, fun _ => none, acc.maxSeq, acc.maxTxId⟩ wal.2
  return ⟨acc.tables ++ [r.table], r.maxSeq, r.maxTxId⟩

def restoreTables (wals : List LogFile) : DbResult Restored := wals.foldlM restoreLog ⟨[], 0, 0⟩

/-- `load_wals`: the ids in ascending order, reversed. -/
def loadWals (dir : List LogFile) : List LogFile := dir.insertionSort fun a b => b.1 ≤ a.1

/-- `Wal::restore`. -/
def restore (dir : List LogFile) : DbResult Restored := restoreTables (loadWals dir)

/-- `latest_id`. -/
def latestId (dir : List LogFile) : ℕ := (dir.map Prod.fst).foldr max 0

theorem le_latestId {dir : List LogFile} {wal : LogFile} (h : wal ∈ dir) :
    wal.1 ≤ latestId dir := by
  induction dir with
  | nil => cases h
  | cons a dir ih =>
      rcases List.mem_cons.mp h with rfl | h
      · exact le_max_left _ _
      · exact (ih h).trans (le_max_right _ _)

/-! ### Logs written by `set_batch` -/

/-- A call of `Storage::set_batch`. -/
structure SetBatch where
  tx : UInt64
  batch : List Entry

namespace SetBatch

/-- The records of a call. -/
def cmds (s : SetBatch) : List WalCmd := [.txBegin s.tx, .batch s.tx s.batch, .txCommit s.tx]

/-- The calls it makes on the writer of the log. -/
def calls (s : SetBatch) : List WalWriter.Call :=
  [.append (.txBegin s.tx), .appendBatch s.tx s.batch, .append (.txCommit s.tx)]

theorem cmd_calls (s : SetBatch) : s.calls.map WalWriter.Call.cmd = s.cmds := rfl

/-- The bytes of its three records. -/
def diskSize (s : SetBatch) : ℕ := (encodeLog s.cmds).length

theorem length_encodeLog (s : SetBatch) : (encodeLog s.cmds).length = s.diskSize := rfl

end SetBatch

/-- What a crash may leave of a call that was under way. -/
inductive Tail where
  | none
  | begun (tx : UInt64)
  | logged (tx : UInt64) (batch : List Entry)

namespace Tail

def cmds : Tail → List WalCmd
  | none => []
  | begun tx => [.txBegin tx]
  | logged tx b => [.txBegin tx, .batch tx b]

/-- The versions recorded in it. -/
def entries : Tail → List Entry
  | none => []
  | begun _ => []
  | logged _ b => b

end Tail

/-- The records of a log: whole calls, then what is left of the last one. -/
def logOf (sets : List SetBatch) (tail : Tail) : List WalCmd :=
  sets.flatMap SetBatch.cmds ++ tail.cmds

/-- The versions committed by the calls. -/
def committed (sets : List SetBatch) : List Entry := sets.flatMap fun s => s.batch.map Entry.stored

theorem committed_cons (s : SetBatch) (sets : List SetBatch) :
    committed (s :: sets) = s.batch.map Entry.stored ++ committed sets := rfl

/-! ### Replay -/

/-- Sorted lists with the same entries are equal. -/
theorem Sorted.eq_of_mem_iff {xs ys : List Entry} (hx : Sorted xs) (hy : Sorted ys)
    (h : ∀ e, e ∈ xs ↔ e ∈ ys) : xs = ys := by
  have nodup : ∀ {zs : List Entry}, Sorted zs → zs.Nodup := fun hz =>
    hz.imp fun h he => absurd (congrArg Prod.fst he) h.ne
  exact ((List.perm_ext_iff_of_nodup (nodup hx) (nodup hy)).mpr h).eq_of_pairwise
    (fun a b _ _ hab hba => absurd hab hba.asymm) hx hy

theorem find?_eq_some_of_sorted {es : List Entry} (h : Sorted es) {x : Entry} :
    es.find? (fun y => y.1 = x.1) = some x ↔ x ∈ es := by
  constructor
  · exact List.mem_of_find?_eq_some
  · intro hx
    obtain ⟨y, hy⟩ : ∃ y, es.find? (fun y => y.1 = x.1) = some y :=
      Option.isSome_iff_exists.mp (List.find?_isSome.mpr ⟨x, hx, by simp⟩)
    have hk : y.1 = x.1 := by simpa using List.find?_some hy
    rw [hy, h.eq_of_key (List.mem_of_find?_eq_some hy) hx hk]

/-- Collecting the writes of a transaction in a memtable of its own first changes nothing. -/
theorem putAll_iter_putAll (t : MemTable) (id : ℕ) (es : List Entry) :
    t.putAll ((MemTable.new id).putAll es).iter = t.putAll es := by
  refine MemTable.ext (by simp) ((MemTable.sorted _).eq_of_mem_iff (MemTable.sorted _) ?_)
  intro x
  have hx : x ∈ ((MemTable.new id).putAll es).entries ↔ es.find? (fun y => y.1 = x.1) = some x := by
    simp [MemTable.mem_putAll]
  rw [MemTable.mem_putAll, MemTable.mem_putAll, MemTable.iter,
    find?_eq_some_of_sorted (MemTable.sorted _), hx]

/-- What a record does: nothing, begin a transaction, add writes to one, or commit one. -/
theorem Replay.step_cases {r r' : Replay} {c : WalCmd} (hs : r.step c = .ok r') :
    r' = r ∨
      (∃ tx m, r' = { r with txs := Function.update r.txs tx (some (.new 0)), maxTxId := m }) ∨
      (∃ tx values es, r.txs tx = some values ∧ r' = { r with
        txs := Function.update r.txs tx (some (values.putAll es))
        maxSeq := maxSeqOf r.maxSeq es }) ∨
      ∃ tx values, r.txs tx = some values ∧ r' = { r with
        table := r.table.putAll values.iter
        txs := Function.update r.txs tx none } := by
  cases c with
  | txBegin tx =>
      simp only [Replay.step] at hs
      split_ifs at hs
      cases hs
      exact .inr (.inl ⟨tx, _, rfl⟩)
  | txCommit tx =>
      simp only [Replay.step] at hs
      split at hs
      case h_1 => cases hs
      case h_2 values hv =>
        cases hs
        exact .inr (.inr (.inr ⟨tx, values, hv, rfl⟩))
  | op tx key value =>
      simp only [Replay.step] at hs
      split at hs
      case h_1 =>
        cases hs
        exact .inl rfl
      case h_2 values hv =>
        cases hs
        exact .inr (.inr (.inl ⟨tx, values, [(key, value)], hv, rfl⟩))
  | batch tx batch =>
      simp only [Replay.step] at hs
      split at hs
      case h_1 =>
        cases hs
        exact .inl rfl
      case h_2 values hv =>
        cases hs
        exact .inr (.inr (.inl ⟨tx, values, batch, hv, rfl⟩))

/-- What holds while the log `id` is replayed after others up to `maxSeq`: no version collected is
newer than the sequence counted. -/
structure Replay.Below (id maxSeq : ℕ) (r : Replay) : Prop where
  id : r.table.id = id
  le : maxSeq ≤ r.maxSeq
  table : ∀ e ∈ r.table.entries, e.1.seq.toNat ≤ r.maxSeq
  txs : ∀ tx, ∀ values ∈ r.txs tx, ∀ e ∈ values.entries, e.1.seq.toNat ≤ r.maxSeq

/-- A change of one transaction. -/
theorem Replay.Below.update {id maxSeq : ℕ} {r : Replay} (h : r.Below id maxSeq) {tx : UInt64}
    {o : Option MemTable} {n m : ℕ} (hle : r.maxSeq ≤ n)
    (ho : ∀ values ∈ o, ∀ e ∈ values.entries, e.1.seq.toNat ≤ n) :
    Replay.Below id maxSeq ⟨r.table, Function.update r.txs tx o, n, m⟩ where
  id := h.id
  le := h.le.trans hle
  table e he := (h.table e he).trans hle
  txs tx' values hv e he := by
    have hv : Function.update r.txs tx o tx' = some values := hv
    by_cases htx : tx' = tx
    · rw [htx, Function.update_self] at hv
      exact ho values hv e he
    · rw [Function.update_of_ne htx] at hv
      exact (h.txs tx' values hv e he).trans hle

theorem Replay.Below.step {id maxSeq : ℕ} {r r' : Replay} {c : WalCmd} (h : r.Below id maxSeq)
    (hs : r.step c = .ok r') : r'.Below id maxSeq := by
  rcases Replay.step_cases hs with rfl | ⟨tx, m, rfl⟩ | ⟨tx, values, es, hv, rfl⟩ |
    ⟨tx, values, hv, rfl⟩
  · exact h
  · apply h.update le_rfl
    intro values hv e he
    cases hv
    cases he
  · apply h.update (le_maxSeqOf _ _)
    intro values' hv' e he
    cases hv'
    cases MemTable.mem_putAll.mp he with
    | inl he => exact (h.txs tx values hv e he).trans (le_maxSeqOf _ _)
    | inr he => exact seq_le_maxSeqOf (List.mem_of_find?_eq_some he.2)
  · have hu : Replay.Below id maxSeq
        ⟨r.table, Function.update r.txs tx none, r.maxSeq, r.maxTxId⟩ :=
      h.update le_rfl fun _ h => nomatch h
    refine ⟨(MemTable.putAll_id _ _).trans h.id, h.le, fun e he => ?_, hu.txs⟩
    cases MemTable.mem_putAll.mp he with
    | inl he => exact h.table e he
    | inr he => exact h.txs tx values hv e (List.mem_of_find?_eq_some he.2)

/-- Whatever the logs hold, there is a memtable for each of them, without a version newer than the
sequence that is returned. -/
theorem restoreTables_inv {wals : List LogFile} {r : Restored} (h : restoreTables wals = .ok r) :
    r.tables.map MemTable.id = wals.map Prod.fst ∧
      ∀ t ∈ r.tables, ∀ e ∈ t.entries, e.1.seq.toNat ≤ r.maxSeq := by
  suffices hgen : ∀ acc : Restored, wals.foldlM restoreLog acc = .ok r →
      (∀ t ∈ acc.tables, ∀ e ∈ t.entries, e.1.seq.toNat ≤ acc.maxSeq) →
      r.tables.map MemTable.id = acc.tables.map MemTable.id ++ wals.map Prod.fst ∧
        ∀ t ∈ r.tables, ∀ e ∈ t.entries, e.1.seq.toNat ≤ r.maxSeq by
    exact hgen ⟨[], 0, 0⟩ h fun _ h => nomatch h
  clear h
  induction wals with
  | nil =>
      intro acc h hacc
      cases h
      exact ⟨(List.append_nil _).symm, hacc⟩
  | cons wal wals ih =>
      intro acc h hacc
      rw [List.foldlM_cons] at h
      obtain ⟨acc', hl, h⟩ := ok_of_bind h
      obtain ⟨x, hx, hl⟩ := ok_of_bind hl
      cases hl
      have hx : x.Below wal.1 acc.maxSeq := by
        refine WalReader.foldLog_inv (fun _ _ _ h hs => h.step hs) hx ⟨rfl, le_rfl, ?_, ?_⟩
        · exact fun _ h => nomatch h
        · exact fun _ _ h => nomatch h
      obtain ⟨hids, hle⟩ := ih _ h fun t ht e he => by
        cases List.mem_append.mp ht with
        | inl ht => exact (hacc t ht e he).trans hx.le
        | inr ht => exact hx.table e (List.mem_singleton.mp ht ▸ he)
      refine ⟨?_, hle⟩
      rw [hids, List.map_append, List.map_singleton, hx.id, List.map_cons, List.append_assoc]
      rfl

/-- Outside of any transaction. -/
def Replay.idle (table : MemTable) (maxSeq maxTxId : ℕ) : Replay :=
  ⟨table, fun _ => none, maxSeq, maxTxId⟩

/-- A whole call commits its writes. -/
theorem foldlM_cmds (t : MemTable) (ms mt : ℕ) (s : SetBatch) :
    (s.cmds.map WalCmd.stored).foldlM Replay.step (Replay.idle t ms mt) =
      .ok (Replay.idle (t.putAll (s.batch.map Entry.stored)) (maxSeqOf ms s.batch)
        (max mt s.tx.toNat)) := by
  simp only [SetBatch.cmds, List.map_cons, List.map_nil, WalCmd.stored, List.foldlM_cons,
    List.foldlM_nil, Replay.step, Replay.idle, Option.isSome_none, Bool.false_eq_true, if_false,
    Function.update_self, bind, Except.bind, Function.update_idem, pure, Except.pure,
    putAll_iter_putAll, maxSeqOf_map_stored, Except.ok.injEq, Replay.mk.injEq, true_and, and_true]
  exact Function.update_eq_self s.tx _

theorem foldlM_flatMap_cmds (t : MemTable) (ms mt : ℕ) (sets : List SetBatch) :
    ((sets.flatMap SetBatch.cmds).map WalCmd.stored).foldlM Replay.step (Replay.idle t ms mt) =
      .ok (Replay.idle (t.putAll (committed sets))
        (maxSeqOf ms (sets.flatMap SetBatch.batch))
        (sets.foldl (fun m s => max m s.tx.toNat) mt)) := by
  induction sets generalizing t ms mt with
  | nil => rfl
  | cons s sets ih =>
      rw [List.flatMap_cons, List.map_append, List.foldlM_append, foldlM_cmds]
      apply (ih _ _ _).trans
      rw [committed_cons, MemTable.putAll_append, List.flatMap_cons, maxSeqOf_append]
      rfl

/-- An unfinished call commits nothing; what it has recorded counts for the sequence. -/
theorem foldlM_tail (t : MemTable) (ms mt : ℕ) (tail : Tail) :
    ∃ r, (tail.cmds.map WalCmd.stored).foldlM Replay.step (Replay.idle t ms mt) = .ok r ∧
      r.table = t ∧ r.maxSeq = maxSeqOf ms tail.entries ∧ mt ≤ r.maxTxId := by
  cases tail with
  | none => exact ⟨_, rfl, rfl, rfl, le_rfl⟩
  | begun tx => exact ⟨_, rfl, rfl, rfl, le_max_left _ _⟩
  | logged tx b =>
      refine ⟨⟨t, Function.update (fun _ => none) tx (some ((MemTable.new 0).putAll
        (b.map Entry.stored))), maxSeqOf ms b, max mt tx.toNat⟩, ?_, rfl, rfl, le_max_left _ _⟩
      simp [Tail.cmds, WalCmd.stored, List.foldlM_cons, Replay.step, Replay.idle, bind,
        Except.bind, pure, Except.pure, maxSeqOf_map_stored]

/-- Replaying a log of `set_batch` calls. -/
theorem replay_logOf (t : MemTable) (ms mt : ℕ) (sets : List SetBatch) (tail : Tail) :
    ∃ r, ((logOf sets tail).map WalCmd.stored).foldlM Replay.step (Replay.idle t ms mt) = .ok r ∧
      r.table = t.putAll (committed sets) ∧
      r.maxSeq = maxSeqOf ms (sets.flatMap SetBatch.batch ++ tail.entries) := by
  rw [logOf, List.map_append, List.foldlM_append, foldlM_flatMap_cmds]
  obtain ⟨r, hr, ht, hs, _⟩ := foldlM_tail (t.putAll (committed sets))
    (maxSeqOf ms (sets.flatMap SetBatch.batch)) (sets.foldl (fun m s => max m s.tx.toNat) mt) tail
  exact ⟨r, hr, ht, by rw [hs, maxSeqOf_append]⟩

/-- `restore_tables` on a log of `set_batch` calls, after any other logs. -/
theorem restoreLog_logOf (acc : Restored) (id : ℕ) {sets : List SetBatch} {tail : Tail}
    (h : ∀ c ∈ logOf sets tail, c.Fits) :
    ∃ m, restoreLog acc (id, encodeLog (logOf sets tail)) =
      .ok ⟨acc.tables ++ [(MemTable.new id).putAll (committed sets)],
        maxSeqOf acc.maxSeq (sets.flatMap SetBatch.batch ++ tail.entries), m⟩ := by
  obtain ⟨r, hr, ht, hs⟩ := replay_logOf (.new id) acc.maxSeq acc.maxTxId sets tail
  refine ⟨r.maxTxId, ?_⟩
  rw [restoreLog, WalReader.foldLog_encodeLog h]
  unfold Replay.idle at hr
  rw [hr, ← ht, ← hs]
  rfl

/-! ### A log cut by a crash -/

/-- The first `n` bytes of the log are whole records. -/
def WholeRecords (cmds : List WalCmd) (n : ℕ) : Prop :=
  ∃ pre, pre <+: cmds ∧ (encodeLog cmds).take n = encodeLog pre

/-- The writes of the calls whose records lie wholly in the first `n` bytes. -/
def committedWithin : List SetBatch → ℕ → List Entry
  | [], _ => []
  | s :: sets, n =>
    if s.diskSize ≤ n then s.batch.map Entry.stored ++ committedWithin sets (n - s.diskSize)
    else []

theorem encodeLog_cons (c : WalCmd) (cs : List WalCmd) :
    encodeLog (c :: cs) = c.encode ++ encodeLog cs := rfl

theorem encodeLog_append (cs ds : List WalCmd) :
    encodeLog (cs ++ ds) = encodeLog cs ++ encodeLog ds := List.flatMap_append

theorem diskSize_pos (c : WalCmd) : 0 < c.diskSize := by
  cases c <;> simp only [WalCmd.diskSize] <;> omega

/-- A cut that is not between two records is inside one. -/
theorem exists_torn {cmds : List WalCmd} {n : ℕ} (h : ¬ WholeRecords cmds n) :
    ∃ pre c torn, pre ++ [c] <+: cmds ∧ (encodeLog cmds).take n = encodeLog pre ++ torn ∧
      torn <+: c.encode ∧ torn ≠ [] ∧ torn ≠ c.encode := by
  induction cmds generalizing n with
  | nil => exact absurd ⟨[], List.prefix_rfl, List.take_nil⟩ h
  | cons c cs ih =>
      have hn : n ≠ 0 := by
        rintro rfl
        exact h ⟨[], List.nil_prefix, List.take_zero⟩
      rcases Nat.lt_or_ge n c.diskSize with hlt | hge
      · have hl : c.encode.length = c.diskSize := WalCmd.length_encode c
        refine ⟨[], c, c.encode.take n, ⟨cs, rfl⟩, ?_, List.take_prefix _ _, ?_, ?_⟩
        · rw [encodeLog_cons, List.take_append_of_le_length (by omega)]
          rfl
        · exact List.ne_nil_of_length_pos (by rw [List.length_take]; omega)
        · intro he
          have := congrArg List.length he
          rw [List.length_take] at this
          omega
      · have ht : (encodeLog (c :: cs)).take n =
            c.encode ++ (encodeLog cs).take (n - c.diskSize) := by
          rw [encodeLog_cons, List.take_append, List.take_of_length_le (by simpa using hge),
            WalCmd.length_encode]
        have hcs : ¬ WholeRecords cs (n - c.diskSize) := by
          rintro ⟨pre, hpre, he⟩
          exact h ⟨c :: pre, by simpa using hpre, by rw [ht, he, encodeLog_cons]⟩
        obtain ⟨pre, d, torn, hpre, he, htorn⟩ := ih hcs
        exact ⟨c :: pre, d, torn, by simpa using hpre, by rw [ht, he, encodeLog_cons,
          List.append_assoc], htorn⟩

/-- A log cut inside a record cannot be replayed. -/
theorem foldLog_torn {cmds : List WalCmd} (hfit : ∀ c ∈ cmds, c.Fits) {n : ℕ}
    (h : ¬ WholeRecords cmds n) (r r' : Replay) :
    WalReader.foldLog Replay.step r ((encodeLog cmds).take n) ≠ .ok r' := by
  obtain ⟨pre, c, torn, hpre, he, ht, hne, hne'⟩ := exists_torn h
  have hsub := hpre.subset
  rw [he, WalReader.foldLog_encodeLog_append fun d hd =>
    hfit d (hsub (List.mem_append_left [c] hd))]
  have herr := WalReader.next_torn (hfit c (hsub (by simp))) ht hne hne'
  cases (pre.map WalCmd.stored).foldlM Replay.step r with
  | error e => exact fun h => nomatch h
  | ok r₁ =>
      intro h
      rw [show (Except.ok r₁ >>= fun s => WalReader.foldLog Replay.step s torn) =
        WalReader.foldLog Replay.step r₁ torn from rfl, WalReader.foldLog_error herr] at h
      cases h

theorem eq_of_proper_prefix_cmds {s : SetBatch} {pre : List WalCmd} (h : pre <+: s.cmds)
    (hne : pre ≠ s.cmds) : ∃ tail : Tail, pre = tail.cmds := by
  have hl := lt_of_le_of_ne h.length_le fun hl => hne (h.eq_of_length hl)
  rw [List.prefix_iff_eq_take.mp h]
  generalize pre.length = m at hl
  match m, hl with
  | 0, _ => exact ⟨.none, rfl⟩
  | 1, _ => exact ⟨.begun s.tx, rfl⟩
  | 2, _ => exact ⟨.logged s.tx s.batch, rfl⟩

/-- Whole records of a log of whole calls are such calls and the start of another. -/
theorem prefix_flatMap_cmds {sets : List SetBatch} {pre : List WalCmd}
    (h : pre <+: sets.flatMap SetBatch.cmds) :
    ∃ done tail, pre = logOf done tail ∧
      committed done = committedWithin sets (encodeLog pre).length := by
  induction sets generalizing pre with
  | nil =>
      rw [List.flatMap_nil] at h
      obtain rfl := List.prefix_nil.mp h
      exact ⟨[], .none, rfl, rfl⟩
  | cons s sets ih =>
      rw [List.flatMap_cons] at h
      rcases Codec.prefix_append_cases h with ⟨hp, hne⟩ | ⟨pre', rfl, hp⟩
      · obtain ⟨tail, ht⟩ := eq_of_proper_prefix_cmds hp hne
        obtain ⟨rest, hr⟩ := hp
        have hpos : 0 < (encodeLog rest).length := by
          cases rest with
          | nil => exact absurd ((List.append_nil pre).symm.trans hr) hne
          | cons c cs =>
              rw [encodeLog_cons, List.length_append, WalCmd.length_encode]
              have := diskSize_pos c
              omega
        have hlt : ¬ s.diskSize ≤ (encodeLog pre).length := by
          rw [SetBatch.diskSize, ← hr, encodeLog_append, List.length_append]
          omega
        exact ⟨[], tail, ht, by rw [committedWithin, if_neg hlt]; rfl⟩
      · obtain ⟨done, tail, ht, hc⟩ := ih hp
        refine ⟨s :: done, tail, ?_, ?_⟩
        · rw [ht, logOf, logOf, List.flatMap_cons, List.append_assoc]
        · rw [committedWithin, encodeLog_append, List.length_append, s.length_encodeLog,
            if_pos (Nat.le_add_right _ _), committed_cons, hc, Nat.add_sub_cancel_left]

/-- Beyond the end of the log there is nothing to cut off. -/
theorem committedWithin_min (sets : List SetBatch) (n : ℕ) :
    committedWithin sets (min n (encodeLog (sets.flatMap SetBatch.cmds)).length) =
      committedWithin sets n := by
  induction sets generalizing n with
  | nil => rfl
  | cons s sets ih =>
      rw [List.flatMap_cons, encodeLog_append, List.length_append, s.length_encodeLog]
      generalize hl : (encodeLog (sets.flatMap SetBatch.cmds)).length = l at ih
      by_cases h : s.diskSize ≤ n
      · have hm : min n (s.diskSize + l) - s.diskSize = min (n - s.diskSize) l := by omega
        rw [committedWithin, committedWithin, if_pos (by omega), if_pos h, hm, ih]
      · rw [committedWithin, committedWithin, if_neg (by omega), if_neg h]

/-- The bytes that successful calls leave in a new log are those of their records. -/
theorem file_of_success {sets : List SetBatch}
    (hok : (WalWriter.runCalls (sets.flatMap SetBatch.calls) WalWriter.newLog).2 =
      (sets.flatMap SetBatch.calls).map WalWriter.Call.cmd) :
    (WalWriter.runCalls (sets.flatMap SetBatch.calls) WalWriter.newLog).1.file =
        encodeLog (sets.flatMap SetBatch.cmds) ∧
      ∀ c ∈ sets.flatMap SetBatch.cmds, c.Fits := by
  have hcmds : (sets.flatMap SetBatch.calls).map WalWriter.Call.cmd =
      sets.flatMap SetBatch.cmds := by
    rw [List.map_flatMap]
    rfl
  rw [WalWriter.runCalls_snd, hcmds, List.filter_eq_self] at hok
  have hfit : ∀ c ∈ sets.flatMap SetBatch.cmds, c.Fits := fun c hc => by simpa using hok c hc
  refine ⟨?_, hfit⟩
  have hover : ∀ c ∈ sets.flatMap SetBatch.calls, ¬ c.cmd.Fits → WalWriter.Overcounted c.cmd :=
    fun c hc hn => absurd (hfit _ (hcmds ▸ List.mem_map_of_mem hc)) hn
  rcases List.eq_nil_or_concat' (sets.flatMap SetBatch.calls) with hnil | ⟨pre, c, hc⟩
  · rw [hnil, ← hcmds, hnil]
    rfl
  · have hlast : c.cmd.Fits := hfit _ (hcmds ▸ List.mem_map_of_mem (by rw [hc]; simp))
    rw [hc, WalWriter.file_runCalls hlast, ← hc, WalWriter.flatMap_written_eq hover, hcmds,
      List.filter_eq_self.mpr fun c hc => by simpa using hfit c hc]

/-- **Torn tail**: of a log cut after `n` bytes, replay gives the committed writes exactly if the
cut is at the end of a record; a cut inside a record makes it fail. -/
theorem restore_take_iff (id : ℕ) (sets : List SetBatch)
    (hok : (WalWriter.runCalls (sets.flatMap SetBatch.calls) WalWriter.newLog).2 =
      (sets.flatMap SetBatch.calls).map WalWriter.Call.cmd) (n : ℕ) :
    (restore [(id, (WalWriter.runCalls (sets.flatMap SetBatch.calls)
        WalWriter.newLog).1.file.take n)]).map Restored.tables =
          .ok [(MemTable.new id).putAll (committedWithin sets n)] ↔
      WholeRecords (sets.flatMap SetBatch.cmds) n := by
  obtain ⟨hfile, hfit⟩ := file_of_success hok
  rw [hfile]
  have hload : ∀ wal : LogFile, restore [wal] = restoreLog ⟨[], 0, 0⟩ wal :=
    fun wal => bind_pure _
  rw [hload]
  constructor
  · intro h
    by_contra hw
    rw [restoreLog] at h
    cases hr : WalReader.foldLog Replay.step ⟨.new id, fun _ => none, 0, 0⟩
        ((encodeLog (sets.flatMap SetBatch.cmds)).take n) with
    | error e => rw [hr] at h; cases h
    | ok r => exact foldLog_torn hfit hw _ r hr
  · rintro ⟨pre, hpre, he⟩
    obtain ⟨done, tail, rfl, hc⟩ := prefix_flatMap_cmds hpre
    obtain ⟨m, hm⟩ := restoreLog_logOf ⟨[], 0, 0⟩ id fun c hc => hfit c (hpre.subset hc)
    rw [he, hm, hc, ← he, List.length_take, committedWithin_min]
    rfl

/-- One call that sets `k` to `v`. -/
def oneSet : SetBatch := ⟨1, [(⟨.ascii [0x6b], 1⟩, .set (.ascii [0x76]))]⟩

/-- And one that then sets `j` and deletes `k`. -/
def twoSets : List SetBatch :=
  [oneSet, ⟨2, [(⟨.ascii [0x6a], 2⟩, .set (.ascii [0x77])), (⟨.ascii [0x6b], 2⟩, .delete)]⟩]

/-- A log cut in front of its last commit record gives the writes of the first call. -/
theorem restore_take_twoSets :
    (restore [(7, (WalWriter.runCalls (twoSets.flatMap SetBatch.calls)
        WalWriter.newLog).1.file.take 90)]).map Restored.tables =
          .ok [(MemTable.new 7).putAll oneSet.batch] :=
  (restore_take_iff 7 twoSets (by decide) 90).mpr
    ⟨(twoSets.flatMap SetBatch.cmds).take 5, List.take_prefix _ _, by decide⟩

/-- A log cut inside its first record, as a crash may leave it, cannot be restored. -/
theorem restore_cut_fails :
    (restore [(7, (WalWriter.runCalls ([oneSet].flatMap SetBatch.calls)
        WalWriter.newLog).1.file.take 5)]).map Restored.tables ≠
          .ok [(MemTable.new 7).putAll (committedWithin [oneSet] 5)] := by
  have h : restore [(7, (WalWriter.runCalls ([oneSet].flatMap SetBatch.calls)
      WalWriter.newLog).1.file.take 5)] = .error .eof := by rfl
  rw [h]
  exact fun h => nomatch h

end LowDB
