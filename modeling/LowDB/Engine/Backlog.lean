import Mathlib.Data.List.DropRight
import LowDB.Lib.LeadsTo
import LowDB.Engine.Flushing

/-! # The memtables that wait to be flushed

`flush_oldest` always takes the oldest frozen memtable, so that one which `write_l0` refuses keeps every
newer one waiting as well (`Process.stuck`).  All others can still be written: whoever holds the lock that
keeps `retire` out can go on until it is returned (`exists_unpins`), and then so can the flush
(`exists_flushes`).

The main result, `flushed_iff`, is that a frozen memtable can still get to disk exactly if `write_l0` takes
it and all older ones. -/

namespace LowDB

section lists
variable {α : Type*} {f g : α → Bool}

theorem rdropWhile_congr {l : List α} (h : ∀ x ∈ l, f x = g x) : l.rdropWhile f = l.rdropWhile g := by
  induction l using List.reverseRecOn with
  | nil => rfl
  | append_singleton l x ih =>
      rw [List.rdropWhile_concat, List.rdropWhile_concat, h x (by simp),
        ih fun y hy => h y (List.mem_append_left _ hy)]

theorem rdropWhile_cons {l : List α} (a : α) (h : l.rdropWhile f ≠ []) :
    (a :: l).rdropWhile f = a :: l.rdropWhile f := by
  induction l using List.reverseRecOn with
  | nil => exact absurd rfl h
  | append_singleton l x ih =>
      rw [List.rdropWhile_concat] at h
      rw [← List.cons_append, List.rdropWhile_concat, List.rdropWhile_concat]
      split_ifs with hx
      · exact ih (by rwa [if_pos hx] at h)
      · rfl

end lists

/-! ### What waits -/

namespace CommitLock

/-- The active memtable is about to be frozen. -/
def freezes : CommitLock → Bool
  | freezing | created _ _ => true
  | _ => false

/-- What the holder has to do until `retire` gets through. -/
def left : CommitLock → ℕ
  | begun c ts => (c.buffer.batch ts).length + 2
  | logged c ts n => (c.buffer.batch ts).length - n + 1
  | freezing => 2
  | created _ _ => 1
  | _ => 0

/-- No more entries of the batch are put than it has. -/
def InBatch : CommitLock → Prop
  | logged c ts n => n ≤ (c.buffer.batch ts).length
  | _ => True

theorem freezes_of_not_pins {c : CommitLock} (h : c.pinsState = false) : c.freezes = false := by
  cases c with
  | freezing | created => cases h
  | _ => rfl

end CommitLock

namespace FlushLock

/-- What the holder has to do until it may take the next memtable, out of five. -/
def left : FlushLock → ℕ
  | retired _ => 4
  | free => 3
  | picked _ => 2
  | renamed _ _ => 1
  | installed _ => 0

/-- The memtable that `write_l0` has taken. -/
def passed : FlushLock → List ℕ
  | renamed mt _ | installed mt => [mt]
  | _ => []

end FlushLock

namespace Act

/-- What the holder of the commit lock does until `retire` gets through. -/
def unpins : Act → Bool
  | append | put | createLog | swap => true
  | _ => false

/-- What the holder of the flush lock does. -/
def goesOnFlushing : Act → Bool
  | writeTable | install | retire | removeLog => true
  | _ => false

theorem fails_of_unpins {a : Act} (h : a.unpins) : a.fails = false := by
  cases a with
  | append | put | createLog | swap => rfl
  | _ => cases h

theorem fails_of_goesOnFlushing {a : Act} (h : a.goesOnFlushing) : a.fails = false := by
  cases a with
  | writeTable | install | retire | removeLog => rfl
  | _ => cases h

end Act

namespace Process

/-- The memtables that are frozen or about to be, from the newest to the oldest. -/
def queue (p : Process) : List ℕ := if p.commit.freezes then p.state.ids else p.state.frozen

/-- What is left to do until no memtable is frozen. -/
def work (p : Process) : ℕ := 5 * p.state.frozen.length + p.flush.left

variable [Crc32]

/-- `write_l0` takes the memtable. -/
def writable (p : Process) (mt : ℕ) : Bool := (writeL0 (p.mems mt)).isOk

/-- The oldest memtable in the queue that `write_l0` refuses, with all newer ones. -/
def stuck (p : Process) : List ℕ := p.queue.rdropWhile p.writable

/-- What a call under way has got past. -/
structure Midway (p : Process) : Prop where
  inBatch : p.commit.InBatch
  passed : ∀ mt ∈ p.flush.passed, p.writable mt

variable {d d' : Dir} {p p' : Process} {a : Act} {o : Out} {rest : List ℕ} {mt : ℕ}

theorem writable_iff : p.writable mt ↔ ∃ r, writeL0 (p.mems mt) = .ok r := by
  unfold writable
  cases writeL0 (p.mems mt) <;> simp [Except.isOk, Except.toBool]

theorem writable_congr (h : p'.mems mt = p.mems mt) : p'.writable mt = p.writable mt := by
  unfold writable
  rw [h]

omit [Crc32] in
theorem queue_of_not_freezes (h : p.commit.freezes = false) : p.queue = p.state.frozen :=
  if_neg (ne_true_of_eq_false h)

omit [Crc32] in
theorem queue_of_freezes (h : p.commit.freezes) : p.queue = p.state.ids := if_pos h

omit [Crc32] in
theorem frozen_sub_queue : p.state.frozen ⊆ p.queue := by
  unfold queue
  split
  · exact List.subset_cons_self _ _
  · exact List.Subset.refl _

omit [Crc32] in
theorem passed_sub_frozen (h : p.Flush) : p.flush.passed ⊆ p.state.frozen := by
  unfold Flush at h
  intro id hid
  cases hf : p.flush with
  | renamed mt t | installed mt =>
      rw [hf] at h hid
      obtain ⟨⟨fs, hfs⟩, -⟩ := h
      rw [hfs, List.mem_singleton.mp hid]
      exact List.mem_append_right _ List.mem_cons_self
  | _ => rw [hf] at hid; cases hid

/-! ### What a step does to the queue -/

/-- A memtable that waits does not change. -/
theorem mems_of_step (hi : p.Ids d rest) (hs : Step d p a o d' p') {id : ℕ} (hid : id ∈ p.queue) :
    p'.mems id = p.mems id := by
  cases hs with
  | put hc =>
      rw [queue_of_not_freezes (by rw [hc]; rfl)] at hid
      refine Function.update_of_ne ?_ _ _
      rintro rfl
      exact active_notMem_frozen hi (List.mem_append_left _ hid)
  | swap hc =>
      rw [queue_of_freezes (by rw [hc]; rfl)] at hid
      unfold Ids at hi
      rw [hc] at hi
      refine Function.update_of_ne ?_ _ _
      rintro rfl
      have hn : id ∉ p.state.ids ++ (p.flush.held ++ rest) := (List.nodup_cons.mp hi.nodup).1
      exact hn (List.mem_append_left _ hid)
  | _ => rfl

theorem Midway.step (h : p.Midway) (hi : p.Ids d rest) (hfl : p.Flush) (hs : Step d p a o d' p') :
    p'.Midway := by
  have hkeep : ∀ mt ∈ p.flush.passed, p'.writable mt := fun mt hmt =>
    (writable_congr (mems_of_step hi hs (frozen_sub_queue (passed_sub_frozen hfl hmt)))).trans
      (h.passed mt hmt)
  have hnone {f : FlushLock} (hf : f.passed = []) : ∀ mt ∈ f.passed, p'.writable mt := by simp [hf]
  cases hs with
  | appendBatch => exact ⟨Nat.zero_le _, hkeep⟩
  | put _ he => exact ⟨(List.getElem?_eq_some_iff.mp he).1, hkeep⟩
  | writeTable hf hw =>
      refine ⟨h.inBatch, fun mt hmt => ?_⟩
      cases List.mem_singleton.mp hmt
      exact writable_iff.mpr ⟨_, hw⟩
  | writeNothing hf hw =>
      refine ⟨h.inBatch, fun mt hmt => ?_⟩
      cases List.mem_singleton.mp hmt
      exact writable_iff.mpr ⟨_, hw⟩
  | install hf => exact ⟨h.inBatch, by rw [hf] at hkeep; exact hkeep⟩
  | pick | writeRefused | writeTableFails | retire | removeLog | removeLogFails =>
      exact ⟨h.inBatch, hnone rfl⟩
  | set | commit | stamp | appendBegin | refuse | appendCommit | appendFails | record | publish
  | watermark | prune | finish | freeze | createLog | createLogFails | freezeFails | swap =>
      exact ⟨trivial, hkeep⟩
  | _ => exact ⟨h.inBatch, hkeep⟩

/-- What an action that does not fail may do to the memtables that wait. -/
inductive Queued (p p' : Process) : Prop
  | same (hf : p'.state.frozen = p.state.frozen) (hq : p'.queue = p.queue)
  /-- a freeze begins -/
  | joins (hf : p'.state.frozen = p.state.frozen) (hq : p'.queue = p.state.memTable :: p.queue)
      (hc : p'.commit.freezes)
  | freezes (hf : p'.state.frozen = p.queue) (hq : p'.queue = p.queue)
  | retires {mt : ℕ} (hw : p.writable mt) (hf : p.state.frozen = p'.state.frozen ++ [mt])
      (hq : p.queue = p.state.frozen) (hq' : p'.queue = p'.state.frozen)

theorem queued_of_step (hi : p.Ids d rest) (hfl : p.Flush) (hm : p.Midway) (ha : a.fails = false)
    (hs : Step d p a o d' p') : p.Queued p' := by
  have hsame (hf : p'.state.frozen = p.state.frozen) (hc : p.commit.freezes = false)
      (hc' : p'.commit.freezes = false) : p.Queued p' :=
    .same hf (by rw [queue_of_not_freezes hc, queue_of_not_freezes hc', hf])
  cases hs with
  | set hc | stamp hc | appendBegin hc | appendBatch hc | refuse hc | appendCommit hc | put hc
  | record hc | publish hc | watermark hc | prune hc | finish hc =>
      exact hsame rfl (by rw [hc]; rfl) rfl
  | commit _ _ _ _ _ hc => exact hsame rfl (by rw [hc]; rfl) rfl
  | freeze hc =>
      exact .joins rfl (by rw [queue_of_not_freezes (p := p) (by rw [hc]; rfl)]; rfl) rfl
  | @createLog oc hc =>
      cases oc with
      | none => exact .same rfl (by rw [queue_of_freezes (p := p) (by rw [hc]; rfl)]; rfl)
      | some c => exact .joins rfl (by rw [queue_of_not_freezes (p := p) (by rw [hc]; rfl)]; rfl) rfl
  | swap hc =>
      have hq := queue_of_freezes (p := p) (by rw [hc]; rfl)
      exact .freezes hq.symm hq.symm
  | @retire mt hf hc =>
      have hfr := CommitLock.freezes_of_not_pins hc
      have hw := hm.passed mt (by rw [hf]; exact List.mem_cons_self)
      unfold Flush at hfl
      rw [hf] at hfl
      obtain ⟨⟨fs, hfs⟩, -⟩ := hfl
      refine .retires hw ?_ (queue_of_not_freezes hfr) (queue_of_not_freezes hfr)
      show p.state.frozen = p.state.frozen.filter _ ++ [mt]
      rw [filter_frozen hi hfs, hfs]
  | appendFails | createLogFails | freezeFails | writeTableFails | removeLogFails => cases ha
  | _ => exact .same rfl rfl

theorem stuck_eq (hm : ∀ id ∈ p.queue, p'.mems id = p.mems id) (hq : p'.queue = p.queue) :
    p'.stuck = p.stuck :=
  (congrArg _ hq).trans (rdropWhile_congr fun id hid => writable_congr (hm id hid))

/-- What `write_l0` refuses stays in the queue with all that comes after it. -/
theorem Queued.stuck (h : p.Queued p') (hm : ∀ id ∈ p.queue, p'.mems id = p.mems id) :
    p'.stuck = p.stuck ∨ p'.commit.freezes ∧ (p.stuck ≠ [] → p'.stuck = p.state.memTable :: p.stuck) := by
  have hcongr : p.queue.rdropWhile p'.writable = p.stuck :=
    rdropWhile_congr fun id hid => writable_congr (hm id hid)
  cases h with
  | same _ hq | freezes _ hq => exact .inl (stuck_eq hm hq)
  | joins _ hq hc =>
      refine .inr ⟨hc, fun hne => ?_⟩
      rw [← hcongr] at hne ⊢
      exact (congrArg _ hq).trans (rdropWhile_cons _ hne)
  | @retires mt hw hf hq hq' =>
      have hmt : mt ∈ p.queue := by simp [hq, hf]
      have hw' : p'.writable mt := (writable_congr (hm mt hmt)).trans hw
      refine .inl (Eq.trans ?_ hcongr)
      rw [hq, hf, List.rdropWhile_concat_pos _ _ _ hw', ← hq']
      rfl

/-! ### What can go on -/

omit [Crc32] in
/-- An append returns, whether or not the record fits. -/
theorem exists_appendCall (d : Dir) (p : Process) (ts : ℕ) (call : WalWriter.Call) (c : CommitLock)
    (f : Log → Log) (vs : List Version) : ∃ o d' p', p.appendCall d ts call c f vs = some (d', p', o) ∧
      p'.state = p.state ∧ (p'.commit = c ∨ p'.commit = .free) := by
  unfold appendCall
  split
  · exact ⟨_, _, _, rfl, rfl, .inl rfl⟩
  · exact ⟨_, _, _, rfl, rfl, .inr rfl⟩

theorem exists_append {c : CommitLock} (c' : CommitLock) (hc : p.commit = c) (hfr : c.freezes = false)
    (hfr' : c'.freezes = false) (hlt : c'.left < c.left)
    (h : ∃ o d' p', p.append d = some (d', p', o) ∧ p'.state = p.state ∧
      (p'.commit = c' ∨ p'.commit = .free)) :
    ∃ a o d' p', a.unpins ∧ p.step d a = some (d', p', o) ∧ p'.queue = p.queue ∧
      p'.commit.left < c.left := by
  obtain ⟨o, d', p', ha, hst, hc'⟩ := h
  have hfree : CommitLock.free.left < c.left := (Nat.zero_le _).trans_lt hlt
  have hq : p.queue = p.state.frozen := queue_of_not_freezes (by rw [hc]; exact hfr)
  refine ⟨.append, o, d', p', rfl, ha, ?_, ?_⟩
  · rw [hq, ← hst]
    refine queue_of_not_freezes ?_
    cases hc' with
    | inl h => exact h ▸ hfr'
    | inr h => exact h ▸ rfl
  · cases hc' with
    | inl h => exact h ▸ hlt
    | inr h => exact h ▸ hfree

/-- The holder of the commit lock can go on until `retire` gets through. -/
theorem exists_unpins (d : Dir) (hm : p.Midway) (hpin : p.commit.pinsState) :
    ∃ a o d' p', a.unpins ∧ p.step d a = some (d', p', o) ∧ p'.queue = p.queue ∧
      p'.commit.left < p.commit.left := by
  cases hc : p.commit with
  | begun c ts =>
      refine exists_append (.logged c ts 0) hc rfl rfl (by simp [CommitLock.left]) ?_
      unfold append
      rw [hc]
      exact exists_appendCall _ _ _ _ _ _ _
  | logged c ts n =>
      by_cases hn : n = (c.buffer.batch ts).length
      · refine exists_append (.sealed c ts) hc rfl rfl (by simp [CommitLock.left]) ?_
        unfold append
        rw [hc]
        dsimp only
        rw [if_pos hn]
        exact exists_appendCall _ _ _ _ _ _ _
      · have hle := hm.inBatch
        rw [hc] at hle
        have hlt : n < (c.buffer.batch ts).length := lt_of_le_of_ne hle hn
        have hput : p.put d = some (d, { p with
            mems := Function.update p.mems p.state.memTable
              ((p.mems p.state.memTable).put (c.buffer.batch ts)[n].1 (c.buffer.batch ts)[n].2)
            commit := .logged c ts (n + 1) }, .nothing) := by
          unfold put
          rw [hc]
          dsimp only
          rw [List.getElem?_eq_getElem hlt]
        refine ⟨.put, _, _, _, rfl, hput, ?_, ?_⟩
        · rw [queue_of_not_freezes (p := p) (by rw [hc]; rfl)]
          rfl
        · simp only [CommitLock.left]
          omega
  | freezing =>
      have hcreate : p.createLog d = some (d.addLog p.nextWal, { p with
          nextWal := p.nextWal + 1, commit := .created none p.nextWal }, .nothing) := by
        unfold createLog
        rw [hc]
      refine ⟨.createLog, _, _, _, rfl, hcreate, ?_, Nat.lt_succ_self 1⟩
      rw [queue_of_freezes (p := p) (by rw [hc]; rfl)]
      rfl
  | created oc id =>
      have hswap : p.swap d = some (d, { p with
          mems := Function.update p.mems id (.new id)
          state := ⟨id, p.state.ids⟩
          walBuf := []
          commit := .free }, frozenOut oc) := by
        unfold swap
        rw [hc]
        rfl
      refine ⟨.swap, _, _, _, rfl, hswap, ?_, Nat.zero_lt_one⟩
      rw [queue_of_freezes (p := p) (by rw [hc]; rfl)]
      rfl
  | _ => rw [hc] at hpin; cases hpin

/-- Nothing keeps the flush from the oldest frozen memtable. -/
theorem exists_flushes (d : Dir) (hi : p.Ids d rest) (hfl : p.Flush) (hpin : p.commit.pinsState = false)
    (hbusy : p.flush = .free → p.state.frozen ≠ [])
    (hlast : ∀ mt, p.state.frozen.getLast? = some mt → p.writable mt) :
    ∃ a o d' p', (p.flush = .free ∧ a = .pick ∨ p.flush ≠ .free ∧ a.goesOnFlushing) ∧
      p.step d a = some (d', p', o) ∧ p'.commit = p.commit ∧ p'.work < p.work := by
  unfold Flush at hfl
  unfold work
  cases hf : p.flush with
  | free =>
      have hpick : p.pick d = some (d, { p with
          flush := .picked (p.state.frozen.getLast (hbusy hf)) }, .nothing) := by
        unfold pick
        rw [hf, List.getLast?_eq_some_getLast (hbusy hf)]
      exact ⟨.pick, _, _, _, .inl ⟨rfl, rfl⟩, hpick, rfl, Nat.lt_succ_self _⟩
  | picked mt =>
      rw [hf] at hfl
      obtain ⟨fs, hfs⟩ := hfl
      obtain ⟨r, hr⟩ := writable_iff.mp (hlast mt (by rw [hfs, List.getLast?_concat]))
      cases r with
      | none =>
          have hwrite : p.writeTable d = some (d, { p with
              storage := { p.storage with id := p.storage.id + 1 }
              flush := .installed mt }, .nothing) := by
            unfold writeTable
            rw [hf]
            dsimp only
            rw [hr]
          exact ⟨.writeTable, _, _, _, .inr ⟨FlushLock.noConfusion, rfl⟩, hwrite, rfl, by simp [FlushLock.left]⟩
      | some x =>
          have hwrite : ∃ d' p', p.writeTable d = some (d', p', .nothing) ∧ p'.commit = p.commit ∧
              p'.state = p.state ∧ p'.flush.left = 1 := by
            unfold writeTable
            rw [hf]
            dsimp only
            rw [hr]
            exact ⟨_, _, rfl, rfl, rfl, rfl⟩
          obtain ⟨d', p', hwrite, hc, hst, hl⟩ := hwrite
          refine ⟨.writeTable, _, _, _, .inr ⟨FlushLock.noConfusion, rfl⟩, hwrite, hc, ?_⟩
          rw [hst, hl]
          exact Nat.lt_succ_self _
  | renamed mt t =>
      have hinst : p.install d = some (d, { p with
          storage := p.storage.install t, flush := .installed mt }, .nothing) := by
        unfold install
        rw [hf]
      exact ⟨.install, _, _, _, .inr ⟨FlushLock.noConfusion, rfl⟩, hinst, rfl, Nat.lt_succ_self _⟩
  | installed mt =>
      rw [hf] at hfl
      obtain ⟨⟨fs, hfs⟩, -⟩ := hfl
      have hret : p.retire d = some (d, { p with
          state := ⟨p.state.memTable, p.state.frozen.filter fun id => id ≠ mt⟩
          flush := .retired mt
          readers := p.readers.map (Option.map (Reader.miss (p.mems mt).entries)) }, .nothing) := by
        unfold retire
        rw [hf]
        dsimp only
        rw [if_neg (ne_true_of_eq_false hpin)]
      refine ⟨.retire, _, _, _, .inr ⟨FlushLock.noConfusion, rfl⟩, hret, rfl, ?_⟩
      rw [filter_frozen hi hfs, hfs, List.length_append]
      simp [FlushLock.left]
      omega
  | retired mt =>
      have hrem : p.removeLog d = some ({ d with wal := d.wal.filter fun l => l.id ≠ mt },
          { p with flush := .free }, .flushed (.ok true)) := by
        unfold removeLog
        rw [hf]
      exact ⟨.removeLog, _, _, _, .inr ⟨FlushLock.noConfusion, rfl⟩, hrem, rfl, Nat.lt_succ_self _⟩

theorem Queued.frozen_sub (h : p.Queued p') : p'.state.frozen ⊆ p.queue := by
  cases h with
  | same hf | joins hf => exact hf ▸ frozen_sub_queue
  | freezes hf => exact hf ▸ List.Subset.refl _
  | retires _ hf hq => exact hq ▸ hf ▸ List.subset_append_left _ _

omit [Crc32] in
/-- From the newest to the oldest. -/
theorem ids_desc (hi : p.Ids d rest) : p.state.ids.Pairwise fun a b => b < a :=
  (List.pairwise_append.mp (List.pairwise_append.mp hi.desc).2.1).1

/-- A memtable that `write_l0` refuses stays frozen, and so does a newer one. -/
theorem Queued.behind {m : ℕ} (h : p.Queued p') (hi : p.Ids d rest) (hmt : mt ∈ p.state.frozen)
    (hm : m ∈ p.state.frozen) (hle : m ≤ mt) (hw : p.writable m = false) :
    mt ∈ p'.state.frozen ∧ m ∈ p'.state.frozen := by
  cases h with
  | same hf | joins hf => exact hf ▸ ⟨hmt, hm⟩
  | freezes hf => exact hf ▸ ⟨frozen_sub_queue hmt, frozen_sub_queue hm⟩
  | @retires x hx hf =>
      have hdesc := (List.pairwise_cons.mp (ids_desc hi)).2
      rw [hf] at hmt hm hdesc
      have hlt := fun m hm => (List.pairwise_append.mp hdesc).2.2 m hm x List.mem_cons_self
      have hne : m ≠ x := fun h => Bool.false_ne_true (hw.symm.trans (h ▸ hx))
      have hm : m ∈ p'.state.frozen :=
        (List.mem_append.mp hm).resolve_right fun h => hne (List.mem_singleton.mp h)
      refine ⟨(List.mem_append.mp hmt).resolve_right fun h => ?_, hm⟩
      -- the oldest one is the only one that leaves
      rw [List.mem_singleton.mp h] at hle
      exact (hlt m hm).not_ge hle

end Process

/-! ### Runs -/

section runs
variable [Crc32] {s t : Sys} {d d' : Dir} {p p' : Process} {a : Act} {o : Out} {mt m : ℕ}

theorem step_of_process (h : p.step d a = some (d', p', o)) :
    step ⟨d, some p⟩ a = some (⟨d', some p'⟩, o) ∧ a.isCrash = false := by
  have hs : (p.step d a).map (fun x => ((⟨x.1, some x.2.1⟩ : Sys), x.2.2)) =
      some (⟨d', some p'⟩, o) := by
    rw [h]
    rfl
  cases a with
  | «open» | crash => cases h
  | _ => exact ⟨hs, rfl⟩

theorem Run.midway (h : Reach NoFailure s) : s.Holds (fun _ => True) fun _ p => p.Midway := by
  refine h.holds (fun d p _ _ _ ho => ?_) (fun _ _ _ => trivial)
    (fun d p a o d' p' hr _ hm hs => ?_) trivial
  · obtain ⟨restored, storage, -, -, rfl⟩ := Process.openDb_eq ho
    exact ⟨trivial, fun _ h => absurd h List.not_mem_nil⟩
  · have hst : p.Steady d := hr.steady
    exact hm.step hst.ordered.ids hst.ordered.flush hs

/-- A frozen memtable behind one that `write_l0` refuses stays frozen. -/
theorem Run.waits (hs : Reach NoFailure s) (hp : s.proc = some p) (hmt : mt ∈ p.state.frozen)
    (hm : m ∈ p.state.frozen) (hle : m ≤ mt) (hw : p.writable m = false)
    (ht : Run (Alive NoFailure) s t) : ∃ q, t.proc = some q ∧ mt ∈ q.state.frozen := by
  have hall := ht.along (I := fun _ q => mt ∈ q.state.frozen ∧ m ∈ q.state.frozen ∧ q.writable m = false)
    (fun _ _ ha => ha.2) (fun d q a o d' q' hr ha hi hst => ?_) hp ⟨hmt, hm, hw⟩
  · obtain ⟨q, hq, hmem, -⟩ := hall
    exact ⟨q, hq, hmem⟩
  obtain ⟨hmt, hm, hw⟩ := hi
  have hreach := hs.trans (hr.mono fun _ _ h => h.1)
  have hsteady : q.Steady d := hreach.steady
  have hids := hsteady.ordered.ids
  have hqueued := Process.queued_of_step hids hsteady.ordered.flush hreach.midway ha.1 hst
  obtain ⟨hmt', hm'⟩ := hqueued.behind hids hmt hm hle hw
  exact ⟨hmt', hm', (Process.writable_congr
    (Process.mems_of_step hids hst (Process.frozen_sub_queue hm))).trans hw⟩

/-- One action in which nothing fails. -/
def Goes (s t : Sys) : Prop := ∃ a o, Alive NoFailure s a ∧ step s a = some (t, o)

theorem run_of_goes (h : Relation.ReflTransGen Goes s t) : Run (Alive NoFailure) s t := by
  induction h with
  | refl => exact .refl
  | tail _ hst ih =>
      obtain ⟨a, o, ha, hst⟩ := hst
      exact ih.tail ha hst

/-- Everything in the queue up to `mt` can be written. -/
def Clear (mt : ℕ) (s : Sys) : Prop :=
  Reach NoFailure s ∧ ∃ p, s.proc = some p ∧ ∀ id ∈ p.queue, id ≤ mt → p.writable id

/-- The holder of the commit lock does not keep `retire` out. -/
def Unpinned (s : Sys) : Prop := ∀ p, s.proc = some p → p.commit.pinsState = false

theorem Clear.step (h : Clear mt ⟨d, some p⟩) (ha : a.fails = false)
    (hst : p.step d a = some (d', p', o)) (hsub : p'.queue ⊆ p.queue) :
    Goes ⟨d, some p⟩ ⟨d', some p'⟩ ∧ Clear mt ⟨d', some p'⟩ := by
  obtain ⟨hr, q, hq, hw⟩ := h
  cases hq
  obtain ⟨hs, hc⟩ := step_of_process hst
  have hsteady : p.Steady d := hr.steady
  refine ⟨⟨a, o, ⟨ha, hc⟩, hs⟩, hr.tail ha hs, p', rfl, fun id hid hle => ?_⟩
  have hmem := hsub hid
  rw [Process.writable_congr (Process.mems_of_step hsteady.ordered.ids (step_of_eq hst) hmem)]
  exact hw id hmem hle

theorem clear_leadsTo_unpinned : LeadsTo Goes (Clear mt) fun s => Clear mt s ∧ Unpinned s := by
  refine .of_measure (fun s => s.proc.elim 0 fun p => p.commit.left) fun s hc hn => ?_
  obtain ⟨d, o⟩ := s
  obtain ⟨hr, p, hp, -⟩ := id hc
  cases hp
  have hpin : p.commit.pinsState := by
    by_contra h
    exact hn fun q hq => by
      cases hq
      exact Bool.eq_false_of_not_eq_true h
  have hmid : p.Midway := hr.midway
  obtain ⟨a, o, d', p', ha, hst, hq, hlt⟩ := Process.exists_unpins d hmid hpin
  obtain ⟨hgo, hc'⟩ := hc.step (Act.fails_of_unpins ha) hst (hq ▸ List.Subset.refl _)
  exact ⟨_, .single hgo, hc', hlt⟩

theorem clear_leadsTo_flushed :
    LeadsTo Goes (fun s => Clear mt s ∧ Unpinned s)
      fun s => ∀ p, s.proc = some p → mt ∉ p.state.frozen := by
  refine (LeadsTo.of_measure (fun s => s.proc.elim 0 Process.work) fun s hs hn => ?_).trans
    (.of_imp fun _ h => h.2)
  obtain ⟨hc, hu⟩ := hs
  obtain ⟨d, o⟩ := s
  obtain ⟨hr, p, hp, hw⟩ := id hc
  cases hp
  have hmt : mt ∈ p.state.frozen := by
    by_contra h
    exact hn fun q hq => by
      cases hq
      exact h
  have hsteady : p.Steady d := hr.steady
  have hids := hsteady.ordered.ids
  have hfl := hsteady.ordered.flush
  have hlast : ∀ x, p.state.frozen.getLast? = some x → p.writable x := by
    intro x hx
    obtain ⟨fs, hfs⟩ := List.getLast?_eq_some_iff.mp hx
    have hxmem : x ∈ p.state.frozen := hfs ▸ List.mem_append_right _ List.mem_cons_self
    refine hw x (Process.frozen_sub_queue hxmem) ?_
    have hdesc := (List.pairwise_cons.mp (Process.ids_desc hids)).2
    rw [hfs] at hmt hdesc
    cases List.mem_append.mp hmt with
    | inl h => exact ((List.pairwise_append.mp hdesc).2.2 mt h x List.mem_cons_self).le
    | inr h => exact (List.mem_singleton.mp h).ge
  obtain ⟨a, o, d', p', ha, hst, hcm, hlt⟩ :=
    Process.exists_flushes d hids hfl (hu p rfl) (fun _ => List.ne_nil_of_mem hmt) hlast
  have haf : a.fails = false := by
    rcases ha with ⟨-, rfl⟩ | ⟨-, ha⟩
    · rfl
    · exact Act.fails_of_goesOnFlushing ha
  have hpin' : p'.commit.pinsState = false := hcm ▸ hu p rfl
  have hqueued := Process.queued_of_step hids hfl hr.midway haf (step_of_eq hst)
  have hsub : p'.queue ⊆ p.queue :=
    Process.queue_of_not_freezes (CommitLock.freezes_of_not_pins hpin') ▸ hqueued.frozen_sub
  obtain ⟨hgo, hc'⟩ := hc.step haf hst hsub
  refine ⟨_, .single hgo, ⟨hc', fun q hq => ?_⟩, hlt⟩
  cases hq
  exact hpin'

end runs

/-- **The backlog**: a frozen memtable can still leave memory, whatever the tasks of the process do while
nothing fails, exactly if `write_l0` takes it and every older frozen memtable. -/
theorem flushed_iff [Crc32] {s : Sys} {p : Process} {mt : ℕ} (hs : Reach NoFailure s)
    (hp : s.proc = some p) (hmt : mt ∈ p.state.frozen) :
    (∃ t q, Run (Alive NoFailure) s t ∧ t.proc = some q ∧ mt ∉ q.state.frozen) ↔
      ∀ id ∈ p.state.frozen, id ≤ mt → ∃ r, writeL0 (p.mems id) = .ok r := by
  obtain ⟨d, _⟩ := s
  cases hp
  have hsteady : p.Steady d := hs.steady
  have hdesc := Process.ids_desc hsteady.ordered.ids
  constructor
  · rintro ⟨t, q, ht, hq, hnot⟩ id hid hle
    refine Process.writable_iff.mp ?_
    by_contra hw
    obtain ⟨q', hq', hmem⟩ := hs.waits rfl hmt hid hle (Bool.eq_false_of_not_eq_true hw) ht
    cases hq.symm.trans hq'
    exact hnot hmem
  · intro hw
    have hclear : Clear mt ⟨d, some p⟩ := by
      refine ⟨hs, p, rfl, fun id hid hle => ?_⟩
      have hfrozen : id ∈ p.state.frozen := by
        unfold Process.queue at hid
        split_ifs at hid
        · -- the active memtable is newer
          refine (List.mem_cons.mp hid).resolve_left fun h => ?_
          exact ((List.pairwise_cons.mp hdesc).1 mt hmt).not_ge (h ▸ hle)
        · exact hid
      exact Process.writable_iff.mpr (hw id hfrozen hle)
    obtain ⟨t, hgo, hdone⟩ := (clear_leadsTo_unpinned.trans clear_leadsTo_flushed) _ hclear
    have hrun := run_of_goes hgo
    obtain ⟨q, hq, -⟩ := hrun.along (I := fun _ _ => True) (fun _ _ ha => ha.2)
      (fun _ _ _ _ _ _ _ _ _ _ => trivial) rfl trivial
    exact ⟨t, q, hrun, hq, hdone q hq⟩

/-- Two memtables are frozen, and both can be written. -/
def flushedTwoFrozen : Option (Sys × Process) := do
  let s ← @exec crc32 NoFailure _ .init
    (.open :: (setActs keyK textOne ++ freezeActs ++ (setActs keyK textTwo ++ freezeActs)))
  let p ← s.proc
  if p.state.frozen = [2, 1] ∧ @Process.writable crc32 p 1 ∧ @Process.writable crc32 p 2 then
    return (s, p) else none

theorem flushed_iff_twoFrozen : ∃ (s : Sys) (p : Process), s.proc = some p ∧ p.state.frozen = [2, 1] ∧
    ∃ t q, @Run crc32 (Alive NoFailure) s t ∧ t.proc = some q ∧ 2 ∉ q.state.frozen := by
  have h : flushedTwoFrozen.isSome := by decide +kernel
  obtain ⟨⟨s, p⟩, h⟩ := Option.isSome_iff_exists.mp h
  unfold flushedTwoFrozen at h
  simp only [bind, Option.bind_eq_some_iff] at h
  obtain ⟨_, hs, _, hp, he⟩ := h
  split_ifs at he with hx
  cases he
  obtain ⟨hfr, h₁, h₂⟩ := hx
  have hmt : 2 ∈ p.state.frozen := by simp [hfr]
  refine ⟨s, p, hp, hfr, (@flushed_iff crc32 s p 2 (@reach_of_exec crc32 _ _ _ _ hs) hp hmt).mpr ?_⟩
  intro id hid _
  simp only [hfr, List.mem_cons, List.not_mem_nil, or_false] at hid
  rcases hid with rfl | rfl
  · exact (@Process.writable_iff crc32 p 2).mp h₂
  · exact (@Process.writable_iff crc32 p 1).mp h₁

end LowDB
