import Mathlib.Data.List.Induction
import Mathlib.Order.Bounds.Basic
import LowDB.Storage.Wal

/-! # Replaying arbitrary logs

`restore_tables` on logs with any records in any order.  A transaction is open between its `TxBegin`
and the next `TxCommit` with its id (`OpenAfter`); a log is `Malformed` when it begins an open
transaction or commits one that is not open.  The main result is `restoreTables_spec`: replay fails
exactly on malformed logs, and otherwise returns for each log the versions recorded between the two
records of a committed transaction, the first one in commit order where several have one key.

The proof describes the variables of the loop over a log by the records read so far
(`Replay.Read`); one round keeps the description or fails on a `Misplaced` record. -/

namespace LowDB

/-- The versions a record adds to the transaction `tx`. -/
def WalCmd.writesTo (tx : UInt64) : WalCmd → List Entry
  | txBegin _ => []
  | txCommit _ => []
  | op t k v => if t = tx then [(k, v)] else []
  | batch t b => if t = tx then b else []

/-- After the records `pre` the transaction is open: it has begun and not been committed since. -/
def OpenAfter (pre : List WalCmd) (tx : UInt64) : Prop :=
  ∃ a b, pre = a ++ .txBegin tx :: b ∧ WalCmd.txCommit tx ∉ b

/-- After the records `pre`, the record begins an open transaction or commits one that is not open. -/
def Misplaced (pre : List WalCmd) (c : WalCmd) : Prop :=
  (∃ tx, c = .txBegin tx ∧ OpenAfter pre tx) ∨ ∃ tx, c = .txCommit tx ∧ ¬ OpenAfter pre tx

def Malformed (cs : List WalCmd) : Prop := ∃ pre c post, cs = pre ++ c :: post ∧ Misplaced pre c

/-- The versions recorded for the transaction since it last began. -/
def recordedFor (tx : UInt64) (pre : List WalCmd) : List Entry :=
  pre.foldl (fun es c => if c = .txBegin tx then [] else es ++ c.writesTo tx) []

/-- What the record commits after `pre`. -/
def commitOf (pre : List WalCmd) : WalCmd → List Entry
  | .txCommit tx => recordedFor tx pre
  | _ => []

def committedFrom (pre : List WalCmd) : List WalCmd → List Entry
  | [] => []
  | c :: cs => commitOf pre c ++ committedFrom (pre ++ [c]) cs

/-- The versions of the committed transactions: in commit order, and those of one transaction in log
order. -/
def committedWrites (cs : List WalCmd) : List Entry := committedFrom [] cs

/-- The version is recorded between the `TxBegin` and the `TxCommit` of one transaction. -/
def CommittedIn (cs : List WalCmd) (e : Entry) : Prop :=
  ∃ tx a b c, cs = a ++ .txBegin tx :: (b ++ .txCommit tx :: c) ∧ WalCmd.txCommit tx ∉ b ∧
    e ∈ b.flatMap (WalCmd.writesTo tx)

/-- The ids of the transactions begun. -/
def begunIds (cs : List WalCmd) : Set ℕ := {n | ∃ tx, WalCmd.txBegin tx ∈ cs ∧ tx.toNat = n}

/-- The sequences recorded inside an open transaction. -/
def openSeqs (cs : List WalCmd) : Set ℕ :=
  {n | ∃ pre c post, cs = pre ++ c :: post ∧
    ∃ tx, OpenAfter pre tx ∧ ∃ e ∈ c.writesTo tx, e.1.seq.toNat = n}

/-! ### One more record -/

section concat

variable {pre cs : List WalCmd} {c : WalCmd} {tx : UInt64}

/-- A place in a list with one more element. -/
theorem exists_split_concat {α : Type} {l : List α} {y : α} {P : List α → α → Prop} :
    (∃ a x b, l ++ [y] = a ++ x :: b ∧ P a x) ↔ (∃ a x b, l = a ++ x :: b ∧ P a x) ∨ P l y := by
  constructor
  · rintro ⟨a, x, b, h, hP⟩
    rcases List.eq_nil_or_concat' b with rfl | ⟨b, z, rfl⟩
    · obtain ⟨rfl, he⟩ := List.append_inj' h rfl
      cases he
      exact .inr hP
    · rw [← List.cons_append, ← List.append_assoc] at h
      obtain ⟨rfl, -⟩ := List.append_inj' h rfl
      exact .inl ⟨a, x, b, rfl, hP⟩
  · rintro (⟨a, x, b, rfl, hP⟩ | hP)
    · exact ⟨a, x, b ++ [y], by simp, hP⟩
    · exact ⟨l, y, [], rfl, hP⟩

theorem not_openAfter_nil : ¬ OpenAfter [] tx := by
  rintro ⟨a, b, h, -⟩
  exact absurd h.symm (by simp)

theorem openAfter_concat :
    OpenAfter (pre ++ [c]) tx ↔ c = .txBegin tx ∨ c ≠ .txCommit tx ∧ OpenAfter pre tx := by
  constructor
  · rintro ⟨a, b, h, hb⟩
    rcases List.eq_nil_or_concat' b with rfl | ⟨b, d, rfl⟩
    · obtain ⟨-, he⟩ := List.append_inj' h rfl
      exact .inl (List.singleton_inj.mp he)
    · rw [← List.cons_append, ← List.append_assoc] at h
      obtain ⟨rfl, he⟩ := List.append_inj' h rfl
      obtain rfl := List.singleton_inj.mp he
      rw [List.mem_append, not_or] at hb
      exact .inr ⟨fun hc => hb.2 (hc ▸ List.mem_singleton_self _), a, b, rfl, hb.1⟩
  · rintro (rfl | ⟨hne, a, b, rfl, hb⟩)
    · exact ⟨pre, [], rfl, List.not_mem_nil⟩
    · refine ⟨a, b ++ [c], by simp, ?_⟩
      rw [List.mem_append, List.mem_singleton, not_or]
      exact ⟨hb, hne.symm⟩

/-- A record of another kind opens and closes nothing. -/
theorem openAfter_concat_iff (hb : ∀ tx, c ≠ .txBegin tx) (hc : ∀ tx, c ≠ .txCommit tx) :
    OpenAfter (pre ++ [c]) tx ↔ OpenAfter pre tx := by
  rw [openAfter_concat]
  simp [hb tx, hc tx]

theorem malformed_concat : Malformed (cs ++ [c]) ↔ Malformed cs ∨ Misplaced cs c :=
  exists_split_concat

theorem openSeqs_concat :
    openSeqs (cs ++ [c]) = openSeqs cs ∪
      {n | ∃ tx, OpenAfter cs tx ∧ ∃ e ∈ c.writesTo tx, e.1.seq.toNat = n} := by
  ext n
  exact exists_split_concat

theorem begunIds_concat :
    begunIds (cs ++ [c]) = begunIds cs ∪ {n | ∃ tx, c = .txBegin tx ∧ tx.toNat = n} := by
  ext n
  simp only [begunIds, Set.mem_ofPred_eq, Set.mem_union, List.mem_append, List.mem_singleton,
    or_and_right, exists_or, eq_comm (b := c)]

theorem recordedFor_concat :
    recordedFor tx (pre ++ [c]) =
      if c = .txBegin tx then [] else recordedFor tx pre ++ c.writesTo tx := by
  unfold recordedFor
  rw [List.foldl_concat]

theorem committedFrom_concat :
    committedFrom pre (cs ++ [c]) = committedFrom pre cs ++ commitOf (pre ++ cs) c := by
  induction cs generalizing pre with
  | nil => simp [committedFrom]
  | cons d cs ih =>
      rw [List.cons_append, committedFrom, committedFrom, ih, List.append_assoc, List.append_assoc]
      rfl

theorem committedWrites_concat :
    committedWrites (cs ++ [c]) = committedWrites cs ++ commitOf cs c := committedFrom_concat

end concat

/-! ### What is committed -/

section wellFormed

variable {cs pre : List WalCmd} {tx : UInt64} {e : Entry}

theorem recordedFor_append {a b : List WalCmd} (h : WalCmd.txBegin tx ∉ b) :
    recordedFor tx (a ++ .txBegin tx :: b) = b.flatMap (WalCmd.writesTo tx) := by
  induction b using List.reverseRecOn with
  | nil => rw [recordedFor_concat, if_pos rfl, List.flatMap_nil]
  | append_singleton b c ih =>
      rw [List.mem_append, List.mem_singleton, not_or] at h
      rw [← List.cons_append, ← List.append_assoc, recordedFor_concat, if_neg (Ne.symm h.2), ih h.1,
        List.flatMap_append, List.flatMap_singleton]

theorem mem_committedWrites :
    e ∈ committedWrites cs ↔ ∃ pre c post, cs = pre ++ c :: post ∧ e ∈ commitOf pre c := by
  induction cs using List.reverseRecOn with
  | nil => simp [committedWrites, committedFrom]
  | append_singleton cs c ih =>
      rw [committedWrites_concat, List.mem_append, ih, exists_split_concat]

/-- No open transaction begins again in a log that is well formed. -/
theorem txBegin_notMem {a b c : List WalCmd} (h : ¬ Malformed cs)
    (hcs : cs = a ++ .txBegin tx :: (b ++ c)) (hb : WalCmd.txCommit tx ∉ b) :
    WalCmd.txBegin tx ∉ b := by
  intro hm
  obtain ⟨b₁, b₂, rfl⟩ := List.append_of_mem hm
  refine h ⟨a ++ .txBegin tx :: b₁, .txBegin tx, b₂ ++ c, by simp [hcs], .inl ⟨tx, rfl, a, b₁, rfl, ?_⟩⟩
  exact fun h => hb (List.mem_append_left _ h)

/-- The committed versions are those recorded between the two records of a transaction. -/
theorem mem_committedWrites_iff (h : ¬ Malformed cs) : e ∈ committedWrites cs ↔ CommittedIn cs e := by
  rw [mem_committedWrites]
  constructor
  · rintro ⟨pre, c, post, rfl, he⟩
    cases c with
    | txCommit tx =>
        have hopen : OpenAfter pre tx := by
          by_contra hn
          exact h ⟨pre, .txCommit tx, post, rfl, .inr ⟨tx, rfl, hn⟩⟩
        obtain ⟨a, b, rfl, hb⟩ := hopen
        have hcs : a ++ .txBegin tx :: b ++ .txCommit tx :: post =
            a ++ .txBegin tx :: (b ++ .txCommit tx :: post) := by simp
        have he : e ∈ recordedFor tx (a ++ .txBegin tx :: b) := he
        rw [recordedFor_append (txBegin_notMem h hcs hb)] at he
        exact ⟨tx, a, b, post, hcs, hb, he⟩
    | txBegin => cases he
    | op => cases he
    | batch => cases he
  · rintro ⟨tx, a, b, c, rfl, hb, he⟩
    refine ⟨a ++ .txBegin tx :: b, .txCommit tx, c, by simp, ?_⟩
    show e ∈ recordedFor tx (a ++ .txBegin tx :: b)
    rwa [recordedFor_append (txBegin_notMem h rfl hb)]

end wellFormed

/-! ### The loop over one log -/

theorem isGreatest_maxSeqOf {S : Set ℕ} {m : ℕ} (h : IsGreatest S m) (es : List Entry) :
    IsGreatest (S ∪ {n | ∃ e ∈ es, e.1.seq.toNat = n}) (maxSeqOf m es) := by
  induction es generalizing S m with
  | nil =>
      have hS : S ∪ {n | ∃ e ∈ ([] : List Entry), e.1.seq.toNat = n} = S := by simp
      rw [hS]
      exact h
  | cons e es ih =>
      have hS : S ∪ {n | ∃ x ∈ e :: es, x.1.seq.toNat = n} =
          insert e.1.seq.toNat S ∪ {n | ∃ x ∈ es, x.1.seq.toNat = n} := by
        ext n
        simp only [Set.mem_union, Set.mem_ofPred_eq, Set.mem_insert_iff, List.exists_mem_cons_iff,
          eq_comm (a := n)]
        exact or_left_comm.trans or_assoc.symm
      have hi := ih (h.insert e.1.seq.toNat)
      rw [max_comm] at hi
      rw [hS]
      exact hi

/-- The variables of the loop over the log `id` after the records `pre`.  The ids begun and the
sequences recorded in the logs before it are `T` and `S`. -/
structure Replay.Read (id : ℕ) (S T : Set ℕ) (pre : List WalCmd) (r : Replay) : Prop where
  table : r.table = (MemTable.new id).putAll (committedWrites pre)
  txs : ∀ tx, OpenAfter pre tx → r.txs tx = some ((MemTable.new 0).putAll (recordedFor tx pre))
  closed : ∀ tx, ¬ OpenAfter pre tx → r.txs tx = none
  maxSeq : IsGreatest (S ∪ openSeqs pre) r.maxSeq
  maxTxId : IsGreatest (T ∪ begunIds pre) r.maxTxId

namespace Replay.Read

variable {id : ℕ} {S T : Set ℕ} {pre : List WalCmd} {c : WalCmd} {r : Replay} {tx : UInt64}

theorem openSeqs_of_writesTo_nil (h : ∀ tx, OpenAfter pre tx → c.writesTo tx = []) :
    openSeqs (pre ++ [c]) = openSeqs pre := by
  rw [openSeqs_concat]
  apply Set.union_eq_self_of_subset_right
  rintro n ⟨tx, ho, e, he, -⟩
  rw [h tx ho] at he
  cases he

theorem begunIds_of_ne (h : ∀ tx, c ≠ .txBegin tx) : begunIds (pre ++ [c]) = begunIds pre := by
  rw [begunIds_concat]
  apply Set.union_eq_self_of_subset_right
  rintro n ⟨tx, rfl, -⟩
  exact absurd rfl (h tx)

theorem committedWrites_of_ne (h : ∀ tx, c ≠ .txCommit tx) :
    committedWrites (pre ++ [c]) = committedWrites pre := by
  rw [committedWrites_concat]
  cases c with
  | txCommit tx => exact absurd rfl (h tx)
  | txBegin => exact List.append_nil _
  | op => exact List.append_nil _
  | batch => exact List.append_nil _

theorem txBegin (h : r.Read id S T pre) :
    Replay.Read id S T (pre ++ [.txBegin tx])
      { r with txs := Function.update r.txs tx (some (.new 0)), maxTxId := max r.maxTxId tx.toNat } where
  table := by
    rw [committedWrites_of_ne (by simp)]
    exact h.table
  txs tx' ho := by
    rw [openAfter_concat, WalCmd.txBegin.injEq] at ho
    rw [recordedFor_concat]
    by_cases htx : tx = tx'
    · rw [if_pos (congrArg _ htx), ← htx]
      exact Function.update_self ..
    · rw [if_neg fun he => htx (WalCmd.txBegin.inj he)]
      apply (Function.update_of_ne (Ne.symm htx) ..).trans
      rw [h.txs tx' (ho.resolve_left htx).2, WalCmd.writesTo, List.append_nil]
  closed tx' ho := by
    rw [openAfter_concat, WalCmd.txBegin.injEq, not_or] at ho
    refine (Function.update_of_ne (Ne.symm ho.1) ..).trans (h.closed tx' fun hn => ho.2 ⟨?_, hn⟩)
    simp
  maxSeq := by
    rw [openSeqs_of_writesTo_nil fun _ _ => rfl]
    exact h.maxSeq
  maxTxId := by
    have hT : T ∪ begunIds (pre ++ [.txBegin tx]) = insert tx.toNat (T ∪ begunIds pre) := by
      ext n
      simp only [begunIds_concat, Set.mem_union, Set.mem_ofPred_eq, Set.mem_insert_iff,
        WalCmd.txBegin.injEq, exists_eq_left', eq_comm (a := n)]
      exact or_assoc.symm.trans or_comm
    rw [hT, max_comm]
    exact h.maxTxId.insert tx.toNat

theorem txCommit (h : r.Read id S T pre) :
    Replay.Read id S T (pre ++ [.txCommit tx])
      { r with
        table := r.table.putAll ((MemTable.new 0).putAll (recordedFor tx pre)).iter
        txs := Function.update r.txs tx none } where
  table := by
    rw [putAll_iter_putAll, h.table, committedWrites_concat, MemTable.putAll_append]
    rfl
  txs tx' ho' := by
    rw [openAfter_concat] at ho'
    obtain ⟨hne, ho'⟩ := ho'.resolve_left (by simp)
    rw [recordedFor_concat, if_neg (by simp)]
    have htx : tx' ≠ tx := fun he => hne (he ▸ rfl)
    apply (Function.update_of_ne htx ..).trans
    rw [h.txs tx' ho', WalCmd.writesTo, List.append_nil]
  closed tx' hn := by
    by_cases htx : tx' = tx
    · rw [htx]
      exact Function.update_self ..
    · refine (Function.update_of_ne htx ..).trans (h.closed tx' fun ho' => hn ?_)
      exact openAfter_concat.mpr (.inr ⟨fun he => htx (WalCmd.txCommit.inj he).symm, ho'⟩)
  maxSeq := by
    rw [openSeqs_of_writesTo_nil fun _ _ => rfl]
    exact h.maxSeq
  maxTxId := by
    rw [begunIds_of_ne (by simp)]
    exact h.maxTxId

section write

variable {es : List Entry} (hb : ∀ t, c ≠ .txBegin t) (hc : ∀ t, c ≠ .txCommit t)
  (hw : ∀ t, c.writesTo t = if tx = t then es else [])

include hb hc hw

/-- A record for a transaction that is not open changes nothing. -/
theorem write_closed (h : r.Read id S T pre) (hn : ¬ OpenAfter pre tx) :
    Replay.Read id S T (pre ++ [c]) r := by
  have hnil : ∀ t, OpenAfter pre t → c.writesTo t = [] := fun t ht => by
    rw [hw, if_neg (by rintro rfl; exact hn ht)]
  constructor
  · rw [committedWrites_of_ne hc]
    exact h.table
  · intro t ht
    rw [openAfter_concat_iff hb hc] at ht
    rw [recordedFor_concat, if_neg (hb t), hnil t ht, List.append_nil]
    exact h.txs t ht
  · intro t ht
    rw [openAfter_concat_iff hb hc] at ht
    exact h.closed t ht
  · rw [openSeqs_of_writesTo_nil hnil]
    exact h.maxSeq
  · rw [begunIds_of_ne hb]
    exact h.maxTxId

/-- A record for an open transaction is collected with the others. -/
theorem write_open (h : r.Read id S T pre) (ho : OpenAfter pre tx) :
    Replay.Read id S T (pre ++ [c])
      { r with
        txs := Function.update r.txs tx
          (some (((MemTable.new 0).putAll (recordedFor tx pre)).putAll es))
        maxSeq := maxSeqOf r.maxSeq es } := by
  constructor
  · rw [committedWrites_of_ne hc]
    exact h.table
  · intro t ht
    rw [openAfter_concat_iff hb hc] at ht
    rw [recordedFor_concat, if_neg (hb t), hw]
    by_cases htx : tx = t
    · rw [if_pos htx, MemTable.putAll_append, ← htx]
      exact Function.update_self ..
    · rw [if_neg htx, List.append_nil]
      exact (Function.update_of_ne (Ne.symm htx) ..).trans (h.txs t ht)
  · intro t ht
    rw [openAfter_concat_iff hb hc] at ht
    have htx : t ≠ tx := by
      rintro rfl
      exact ht ho
    exact (Function.update_of_ne htx ..).trans (h.closed t ht)
  · have hS : S ∪ openSeqs (pre ++ [c]) =
        S ∪ openSeqs pre ∪ {n | ∃ e ∈ es, e.1.seq.toNat = n} := by
      rw [openSeqs_concat, ← Set.union_assoc]
      congr 1
      ext n
      constructor
      · rintro ⟨t, -, e, he, hn⟩
        rw [hw] at he
        split_ifs at he
        · exact ⟨e, he, hn⟩
        · cases he
      · rintro ⟨e, he, hn⟩
        exact ⟨tx, ho, e, by rwa [hw, if_pos rfl], hn⟩
    rw [hS]
    exact isGreatest_maxSeqOf h.maxSeq es
  · rw [begunIds_of_ne hb]
    exact h.maxTxId

end write

/-- One round of the loop: the record is misplaced and the replay fails, or it goes on. -/
theorem step (h : r.Read id S T pre) (c : WalCmd) :
    (∃ r', r.step c = .ok r' ∧ ¬ Misplaced pre c ∧ r'.Read id S T (pre ++ [c])) ∨
      ∃ msg, r.step c = .error (.invalidState msg) ∧ Misplaced pre c := by
  cases c with
  | txBegin tx =>
      by_cases ho : OpenAfter pre tx
      · refine .inr ⟨s!"corrupted WAL; duplicate transaction id: '{tx}'", ?_, .inl ⟨tx, rfl, ho⟩⟩
        rw [Replay.step, h.txs tx ho]
        rfl
      · refine .inl ⟨_, ?_, ?_, h.txBegin⟩
        · rw [Replay.step, h.closed tx ho, if_neg (by simp)]
        · rintro (⟨tx', he, ho'⟩ | ⟨tx', he, -⟩)
          · exact ho (WalCmd.txBegin.inj he ▸ ho')
          · cases he
  | txCommit tx =>
      by_cases ho : OpenAfter pre tx
      · refine .inl ⟨_, ?_, ?_, h.txCommit⟩
        · rw [Replay.step, h.txs tx ho]
        · rintro (⟨tx', he, -⟩ | ⟨tx', he, ho'⟩)
          · cases he
          · exact ho' (WalCmd.txCommit.inj he ▸ ho)
      · refine .inr ⟨s!"corrupted WAL; unknown transaction commit: '{tx}'", ?_, .inr ⟨tx, rfl, ho⟩⟩
        rw [Replay.step, h.closed tx ho]
  | op tx k v =>
      have hm : ¬ Misplaced pre (.op tx k v) := by
        rintro (⟨tx', he, -⟩ | ⟨tx', he, -⟩) <;> cases he
      by_cases ho : OpenAfter pre tx
      · refine .inl ⟨_, ?_, hm, h.write_open (by simp) (by simp) (fun _ => rfl) ho⟩
        rw [Replay.step, h.txs tx ho]
        rfl
      · refine .inl ⟨r, ?_, hm, h.write_closed (by simp) (by simp) (fun _ => rfl) ho⟩
        rw [Replay.step, h.closed tx ho]
  | batch tx b =>
      have hm : ¬ Misplaced pre (.batch tx b) := by
        rintro (⟨tx', he, -⟩ | ⟨tx', he, -⟩) <;> cases he
      by_cases ho : OpenAfter pre tx
      · refine .inl ⟨_, ?_, hm, h.write_open (by simp) (by simp) (fun _ => rfl) ho⟩
        rw [Replay.step, h.txs tx ho]
      · refine .inl ⟨r, ?_, hm, h.write_closed (by simp) (by simp) (fun _ => rfl) ho⟩
        rw [Replay.step, h.closed tx ho]

theorem start {table : MemTable} {ms mt : ℕ} (ht : table = .new id) (hS : IsGreatest S ms)
    (hT : IsGreatest T mt) : Replay.Read id S T [] ⟨table, fun _ => none, ms, mt⟩ where
  table := ht
  txs _ ho := absurd ho not_openAfter_nil
  closed _ _ := rfl
  maxSeq := by simpa [openSeqs] using hS
  maxTxId := by simpa [begunIds] using hT

/-- The whole loop over a log. -/
theorem foldlM (h : r.Read id S T pre) (hm : ¬ Malformed pre) (cs : List WalCmd) :
    (∃ r', cs.foldlM Replay.step r = .ok r' ∧ ¬ Malformed (pre ++ cs) ∧
        r'.Read id S T (pre ++ cs)) ∨
      ∃ msg, cs.foldlM Replay.step r = .error (.invalidState msg) ∧ Malformed (pre ++ cs) := by
  induction cs generalizing pre r with
  | nil => exact .inl ⟨r, rfl, by rwa [List.append_nil], by rwa [List.append_nil]⟩
  | cons c cs ih =>
      rw [List.foldlM_cons]
      rcases h.step c with ⟨r', hs, hc, hr⟩ | ⟨msg, hs, hc⟩
      · rw [hs, List.append_cons]
        exact ih hr (by rw [malformed_concat, not_or]; exact ⟨hm, hc⟩)
      · rw [hs]
        exact .inr ⟨msg, rfl, pre, c, cs, rfl, hc⟩

end Replay.Read

/-! ### The loop over the logs -/

/-- The memtable `t` of the log `id` with the records `cs` holds its committed versions, of several
with one key the first. -/
structure Replayed (id : ℕ) (cs : List WalCmd) (t : MemTable) : Prop where
  id : t.id = id
  first : ∀ x, x ∈ t.entries ↔ (committedWrites cs).find? (fun y => y.1 = x.1) = some x
  committed : ∀ e, e ∈ committedWrites cs ↔ CommittedIn cs e

theorem Replay.Read.replayed {id : ℕ} {S T : Set ℕ} {cs : List WalCmd} {r : Replay}
    (h : r.Read id S T cs) (hm : ¬ Malformed cs) : Replayed id cs r.table where
  id := by rw [h.table, MemTable.putAll_id, MemTable.new_id]
  first x := by simp [h.table, MemTable.mem_putAll]
  committed _ := mem_committedWrites_iff hm

/-- A committed version is recorded inside an open transaction. -/
theorem CommittedIn.openSeqs {cs : List WalCmd} {e : Entry} (h : CommittedIn cs e) :
    e.1.seq.toNat ∈ openSeqs cs := by
  obtain ⟨tx, a, b, c, rfl, hb, he⟩ := h
  obtain ⟨d, hd, hed⟩ := List.mem_flatMap.mp he
  obtain ⟨b₁, b₂, rfl⟩ := List.append_of_mem hd
  refine ⟨a ++ .txBegin tx :: b₁, d, b₂ ++ .txCommit tx :: c, by simp, tx, ⟨a, b₁, rfl, ?_⟩, e, hed,
    rfl⟩
  exact fun h => hb (List.mem_append_left _ h)

theorem foldlM_restoreLog {wals : List LogFile} {logs : List (List WalCmd)} {acc : Restored}
    {S T : Set ℕ} (h : List.Forall₂ (fun wal cs => WalReader.readAll wal.2 = .ok cs) wals logs)
    (hS : IsGreatest S acc.maxSeq) (hT : IsGreatest T acc.maxTxId) :
    (∃ r ts, wals.foldlM restoreLog acc = .ok r ∧ (∀ cs ∈ logs, ¬ Malformed cs) ∧
        r.tables = acc.tables ++ ts ∧
        List.Forall₂ (fun x t => Replayed x.1.1 x.2 t) (wals.zip logs) ts ∧
        IsGreatest (S ∪ {n | ∃ cs ∈ logs, n ∈ openSeqs cs}) r.maxSeq ∧
        IsGreatest (T ∪ {n | ∃ cs ∈ logs, n ∈ begunIds cs}) r.maxTxId) ∨
      ∃ msg, wals.foldlM restoreLog acc = .error (.invalidState msg) ∧
        ∃ cs ∈ logs, Malformed cs := by
  induction h generalizing acc S T with
  | nil =>
      refine .inl ⟨acc, [], rfl, fun _ h => (nomatch h), (List.append_nil _).symm, .nil, ?_, ?_⟩
      · simpa using hS
      · simpa using hT
  | @cons wal cs wals logs hread _ ih =>
      rw [List.foldlM_cons, restoreLog, WalReader.foldLog_of_readAll hread]
      have hnil : ¬ Malformed [] := by
        rintro ⟨pre, c, post, he, -⟩
        exact absurd he.symm (by simp)
      rcases (@Replay.Read.start wal.1 _ _ _ _ _ rfl hS hT).foldlM hnil cs with
        ⟨r, hr, hm, hread⟩ | ⟨msg, hr, hm⟩
      · rw [List.nil_append] at hm hread
        rw [hr]
        rcases @ih ⟨acc.tables ++ [r.table], r.maxSeq, r.maxTxId⟩ _ _ hread.maxSeq hread.maxTxId with
          ⟨r', ts, hr', hms, ht, hts, hS', hT'⟩ | ⟨msg, hr', c, hc, hm'⟩
        · refine .inl ⟨r', r.table :: ts, hr', List.forall_mem_cons.mpr ⟨hm, hms⟩, ?_,
            .cons (hread.replayed hm) hts, ?_, ?_⟩
          · rw [ht, List.append_assoc]
            rfl
          · rw [Set.union_assoc] at hS'
            convert hS' using 2
            ext n
            simp
          · rw [Set.union_assoc] at hT'
            convert hT' using 2
            ext n
            simp
        · exact .inr ⟨msg, hr', c, List.mem_cons_of_mem _ hc, hm'⟩
      · rw [hr]
        exact .inr ⟨msg, rfl, cs, List.mem_cons_self, hm⟩

/-- **Log replay**: `restore_tables` fails exactly on malformed logs, and otherwise returns one
memtable for each log with its committed versions, the greatest transaction id begun, and the
greatest sequence recorded inside an open transaction. -/
theorem restoreTables_spec {wals : List LogFile} {logs : List (List WalCmd)}
    (h : List.Forall₂ (fun wal cs => WalReader.readAll wal.2 = .ok cs) wals logs) :
    ((∃ msg, restoreTables wals = .error (.invalidState msg)) ↔ ∃ cs ∈ logs, Malformed cs) ∧
      ((∀ cs ∈ logs, ¬ Malformed cs) → ∃ r, restoreTables wals = .ok r ∧
        List.Forall₂ (fun x t => Replayed x.1.1 x.2 t) (wals.zip logs) r.tables ∧
        IsGreatest ({0} ∪ {n | ∃ cs ∈ logs, n ∈ begunIds cs}) r.maxTxId ∧
        IsGreatest ({0} ∪ {n | ∃ cs ∈ logs, n ∈ openSeqs cs}) r.maxSeq ∧
        ∀ t ∈ r.tables, ∀ e ∈ t.entries, e.1.seq.toNat ≤ r.maxSeq) := by
  rcases @foldlM_restoreLog wals logs ⟨[], 0, 0⟩ {0} {0} h isGreatest_singleton isGreatest_singleton with
    ⟨r, ts, hr, hm, ht, hts, hS, hT⟩ | ⟨msg, hr, cs, hcs, hm⟩
  · have hr : restoreTables wals = .ok r := hr
    obtain rfl : r.tables = ts := ht
    refine ⟨iff_of_false ?_ (by simpa using hm), fun _ => ⟨r, hr, hts, hT, hS, ?_⟩⟩
    · rintro ⟨msg, he⟩
      rw [hr] at he
      cases he
    · exact (restoreTables_inv hr).2
  · exact ⟨iff_of_true ⟨msg, hr⟩ ⟨cs, hcs, hm⟩, fun hn => absurd hm (hn cs hcs)⟩

/-- Two transactions that overlap; the second one commits first. -/
def overlapping : List WalCmd :=
  [.txBegin 1, .txBegin 2, .op 1 ⟨.ascii [0x6b], 1⟩ .delete, .op 2 ⟨.ascii [0x6b], 1⟩ (.set .empty),
    .txCommit 2, .txCommit 1]

theorem restoreTables_spec_overlapping :
    (∃ msg, restoreTables [(7, encodeLog overlapping)] = .error (.invalidState msg)) ↔
      ∃ cs ∈ [overlapping.map WalCmd.stored], Malformed cs :=
  (restoreTables_spec (.cons (WalReader.readAll_encodeLog (by decide)) .nil)).1

end LowDB
