import LowDB.Engine.Kept

/-! # Flushing

`DB::flush` freezes the active memtable under the commit lock and then flushes frozen memtables, beside
the background loop, until it finds none.  What is older than the freeze is in memtables and logs with
smaller numbers than what is newer (`Process.Newer`), so once no memtable is frozen it is in tables only.

The main result, `flush_complete`, is that a flush leaves every commit acknowledged before it in a
table, and none of them in a memtable or in a log. -/

namespace LowDB

open Layered

/-- The commit for which the action is the last. -/
def CommitLock.acknowledges : CommitLock → Act → Option (Commit × ℕ)
  | pruned c ts, .finish => some (c, ts)
  | created o _, .swap => o
  | _, _ => none

/-! ### Older and newer than a freeze -/

namespace Process

variable [Crc32] {d d' : Dir} {p p' : Process} {a : Act} {o : Out} {rest : List ℕ} {x : Version}

/-- The invariants without logs left over. -/
structure Steady (d : Dir) (p : Process) : Prop where
  ordered : p.Ordered d []
  settled : p.Settled
  filed : p.Filed d
  placed : p.Placed d

theorem Steady.step (h : p.Steady d) (ha : a.fails = false) (hs : Step d p a o d' p') :
    p'.Steady d' := by
  have hrest : p.restAfter [] a = [] := by
    unfold restAfter
    split
    · cases ha
    · rfl
  have hord := h.ordered.step hs
  rw [hrest] at hord
  exact ⟨hord, h.settled.step h.ordered ha hs,
    h.filed.step h.ordered.ids h.ordered.flush hs,
    h.placed.step h.ordered h.settled h.filed hs⟩

/-- The logs and memtables numbered from `m` on have only versions newer than `n`. -/
structure Newer (n m : ℕ) (d : Dir) (p : Process) : Prop where
  visible : n ≤ p.oracle.visible
  active : m ≤ p.state.memTable
  logs : ∀ l ∈ d.wal, m ≤ l.id → ∀ x, l.Records x → n < x.2.1
  mems : ∀ id ∈ p.state.ids, m ≤ id → ∀ e ∈ (p.mems id).entries, n < e.1.seq.toNat

omit [Crc32] in
/-- The entries of a commit that is not published are newer than all published ones. -/
theorem visible_lt {c : Commit} {ts : ℕ} {e : Entry} (hc : p.Conflicts)
    (hts : ∀ ts ∈ p.commit.openTs, ts < 2 ^ 64) (ht : p.commit.openTs = some ts)
    (he : e ∈ c.buffer.batch ts) : p.oracle.visible < e.1.seq.toNat := by
  rw [Buffer.seq_of_mem_batch (hts ts ht) he]
  exact (hc.openTs ts ht).1

theorem visible_le (hc : p.Conflicts) (hs : Step d p a o d' p') :
    p.oracle.visible ≤ p'.oracle.visible := by
  cases hs with
  | publish hl => exact (hc.openTs _ (by rw [hl]; rfl)).1.le
  | _ => exact le_rfl

/-- A memtable comes into use with the log created for it. -/
theorem mem_ids_of_step (hs : Step d p a o d' p') {id : ℕ} (hid : id ∈ p'.state.ids) :
    id ∈ p.state.ids ∨ id ∈ p.commit.newLogs := by
  cases hs with
  | swap hc =>
      cases List.mem_cons.mp hid with
      | inl hid => exact .inr (by rw [hc, hid]; exact List.mem_cons_self)
      | inr hid => exact .inl hid
  | retire =>
      cases List.mem_cons.mp hid with
      | inl hid => exact .inl (hid ▸ List.mem_cons_self)
      | inr hid => exact .inl (List.mem_cons_of_mem _ (List.mem_filter.mp hid).1)
  | _ => exact .inl hid

omit [Crc32] in
/-- The active memtable is older than a log created for the next. -/
theorem active_lt (hi : p.Ids d rest) {id : ℕ} (h : id ∈ p.commit.newLogs) :
    p.state.memTable < id :=
  (List.pairwise_append.mp hi.desc).2.2 id h _ (List.mem_append_left _ List.mem_cons_self)

theorem Newer.step {n m : ℕ} (h : p.Newer n m d) (hst : p.Steady d) (hs : Step d p a o d' p') :
    p'.Newer n m d' := by
  have hi := hst.ordered.ids
  have hnew : ∀ {c : Commit} {ts : ℕ} {e : Entry}, p.commit.openTs = some ts →
      e ∈ c.buffer.batch ts → n < e.1.seq.toNat := fun ht he =>
    h.visible.trans_lt (visible_lt hst.ordered.conflicts hst.ordered.ts ht he)
  refine ⟨h.visible.trans (visible_le hst.ordered.conflicts hs), ?_, fun l' hl' hm x hx => ?_,
    fun id hid hm e he => ?_⟩
  · cases Placed.active_step hs with
    | inl hact => exact hact ▸ h.active
    | inr hact => exact h.active.trans (active_lt hi hact).le
  · cases records_of_step hs hl' with
    | inl hnil =>
        obtain ⟨s, hs, _⟩ := hx
        rw [hnil.1] at hs
        cases hs
    | inr hold =>
        obtain ⟨l, hl, hle, hr⟩ := hold
        cases hr x hx with
        | inl hx => exact h.logs l hl (hle ▸ hm) x hx
        | inr hx =>
            obtain ⟨_, c, ts, hc, e, he, rfl⟩ := hx
            exact hnew (by rw [hc]; rfl) he
  · cases entries_of_step hs he with
    | inl he =>
        cases mem_ids_of_step hs hid with
        | inl hid => exact h.mems id hid hm e he
        | inr hid =>
            rw [hi.unused id (.inl hid)] at he
            cases he
    | inr he =>
        obtain ⟨_, c, ts, k, hc, he⟩ := he
        exact hnew (by rw [hc]; rfl) he

/-- After a freeze the active memtable and its log have nothing yet. -/
theorem newer_of_froze (h : p.Steady d) (hs : Step d p a (.froze (.ok ())) d' p') :
    p'.Newer p'.oracle.visible p'.state.memTable d' := by
  have hi := h.ordered.ids
  have hdesc := hi.desc
  generalize ho : Out.froze (.ok ()) = o at hs
  cases hs with
  | freezeEmpty hc he =>
      rw [hc] at hdesc
      have hnil : (p.mems p.state.memTable).entries = [] := List.isEmpty_iff.mp he
      refine ⟨le_rfl, le_rfl, ?_, ?_⟩
      · intro l hl hle x hx
        have hid : l.id ∈ p.state.ids ++ (p.flush.held ++ []) := by
          have hw := hi.mem_wal.mp (List.mem_map_of_mem hl)
          rwa [hc] at hw
        cases List.mem_cons.mp hid with
        | inl hid =>
            have hlay := h.placed.active l hl hid x hx
            rw [hid, hnil, layer_nil] at hlay
            cases hlay
        | inr hid => exact absurd hle ((List.pairwise_cons.mp hdesc).1 _ hid).not_ge
      · intro id hid hle e hmem
        cases List.mem_cons.mp hid with
        | inl hid =>
            rw [hid, hnil] at hmem
            cases hmem
        | inr hid =>
            exact absurd hle
              ((List.pairwise_cons.mp hdesc).1 _ (List.mem_append_left _ hid)).not_ge
  | @swap oc new hc =>
      rw [hc] at hdesc
      have hlt : ∀ id ∈ p.state.ids ++ (p.flush.held ++ []), id < new :=
        (List.pairwise_cons.mp hdesc).1
      refine ⟨le_rfl, le_rfl, ?_, ?_⟩
      · intro l hl hle x hx
        have hid : l.id ∈ new :: (p.state.ids ++ (p.flush.held ++ [])) := by
          have hw := hi.mem_wal.mp (List.mem_map_of_mem hl)
          rwa [hc] at hw
        cases List.mem_cons.mp hid with
        | inl hid =>
            exact absurd hx (h.placed.fresh l hl (by rw [hc, hid]; exact List.mem_cons_self) x)
        | inr hid => exact absurd hle (hlt _ hid).not_ge
      · intro id hid hle e hmem
        have hmem : e ∈ (Function.update p.mems new (.new new) id).entries := hmem
        cases List.mem_cons.mp hid with
        | inl hid =>
            rw [hid, Function.update_self] at hmem
            cases hmem
        | inr hid => exact absurd hle (hlt _ (List.mem_append_left _ hid)).not_ge
  | _ => cases ho

/-- No log is left from before. -/
def Cleared (m : ℕ) (d : Dir) : Prop := ∀ l ∈ d.wal, m ≤ l.id

omit [Crc32] in
theorem Newer.cleared {n m : ℕ} (h : p.Newer n m d) (hi : p.Ids d []) (hf : p.flush = .free)
    (hfr : p.state.frozen = []) : Cleared m d := by
  intro l hl
  have hid := hi.mem_wal.mp (List.mem_map_of_mem hl)
  rw [hf, State.ids, hfr] at hid
  cases List.mem_append.mp hid with
  | inl hid => exact h.active.trans (active_lt hi hid).le
  | inr hid => exact h.active.trans (List.mem_singleton.mp hid).ge

theorem Cleared.step {n m : ℕ} (h : Cleared m d) (hn : p.Newer n m d) (hi : p.Ids d rest)
    (hs : Step d p a o d' p') : Cleared m d' := by
  intro l' hl'
  cases records_of_step hs hl' with
  | inl hnew =>
      obtain ⟨l, hl, hid⟩ := exists_log hi (List.mem_append_left _ List.mem_cons_self)
      have hlt := hi.lt _ (List.mem_map_of_mem hl)
      rw [hnew.2]
      exact hn.active.trans (hid.ge.trans hlt.le)
  | inr hold =>
      obtain ⟨l, hl, hid, _⟩ := hold
      exact hid ▸ h l hl

omit [Crc32] in
/-- Where no log is left from before, neither is a memtable. -/
theorem Newer.notMem {n m : ℕ} (h : p.Newer n m d) (hc : Cleared m d) (hi : p.Ids d rest)
    (hx : x.2.1 ≤ n) : (∀ id ∈ p.state.ids, x ∉ layer (p.mems id).entries) ∧
      ∀ l ∈ d.wal, ¬ l.Records x := by
  constructor
  · rintro id hid ⟨e, he, rfl⟩
    obtain ⟨l, hl, hlid⟩ := exists_log hi (List.mem_append_left _ hid)
    exact hx.not_gt (h.mems id hid (hlid ▸ hc l hl) e he)
  · intro l hl hr
    exact hx.not_gt (h.logs l hl (hc l hl) x hr)

end Process

/-! ### Runs -/

/-- What is committed in `s` is still there in `t`: the process goes on, or no append has been refused, so
that processes opened since have taken over all files. -/
def Retains [Crc32] (s t : Sys) : Prop :=
  Run (Alive NoFailure) s t ∨ Run NoFailure s t ∧ t.dir.refused = false

section runs
variable [Crc32] {s t u v w : Sys} {d d' : Dir} {p q : Process} {a : Act} {o : Out} {x : Version}

theorem Run.steady (h : Reach NoFailure s) :
    s.Holds (fun d => (d.wal.map Log.id).Pairwise fun a b => a < b) fun d p => p.Steady d := by
  refine h.holds (fun d p _ _ hs ho => ?_) (fun d p hp => hp.ordered.ids.sorted)
    (fun d p a o d' p' _ ha hp hs => hp.step ha hs) List.Pairwise.nil
  obtain ⟨hord, hle⟩ := Process.ordered_open hs ho
  exact ⟨hord, ⟨fun e he hlt => absurd (hle _ e he) hlt.not_ge, fun id _ => hle id⟩,
    Process.filed_open ho, Process.placed_open ho⟩

/-- What every action keeps, in a process that goes on from a reachable state. -/
theorem Run.along_steady {I : Dir → Process → Prop} (h : Run (Alive NoFailure) s t)
    (hs : Reach NoFailure s) (hp : s.proc = some p)
    (hstep : ∀ d q a o d' q', q.Steady d → I d q → Step d q a o d' q' → I d' q')
    (hi : I s.dir p) : ∃ q, t.proc = some q ∧ I t.dir q :=
  h.along (fun _ _ ha => ha.2) (fun d q a o d' q' hr _ hi hst =>
    hstep d q a o d' q' (hs.trans (hr.mono fun _ _ h => h.1)).steady hi hst) hp hi

theorem Run.kept (h : Run (Alive NoFailure) s t) (hs : Reach NoFailure s) (hp : s.proc = some p)
    (hk : p.Kept s.dir x) : ∃ q, t.proc = some q ∧ q.Kept t.dir x :=
  h.along_steady (I := fun d q => q.Kept d x) hs hp
    (fun _ _ _ _ _ _ hst hk hs => hk.step hst.ordered.ids hst.filed hs) hk

/-- Where all files can be taken over, nothing is lost when the process ends either. -/
theorem Run.kept_clean (h : Run NoFailure s t) (hs : Reach NoFailure s) (hd : t.dir.refused = false)
    (hp : s.proc = some p) (hk : p.Kept s.dir x) :
    t.Holds (fun d => d.refused = false → d.Kept x) fun d q => q.Kept d x := by
  have hs' := hs.clean (h.refused hd)
  have hcons : ∀ {u}, Run Clean s u → _ := fun hu => (hs'.trans hu).consistent_clean
  have hall : t.Holds (fun d => d.refused = false → d.Kept x)
      fun d q => q.Kept d x ∧ (d.refused = false → q.Attached d) := by
    refine (h.clean hd).holds (fun d q hr ha hk ho => ?_) (fun d q hq hd => ?_)
      (fun d q a o d' q' hr ha hq hst => ?_) ?_
    · have hF := hcons hr ha.2
      have hop := Process.opened hF ho
      exact ⟨hop.kept hF (hk ha.2), fun _ => hop.attached hF⟩
    · exact hq.1.crash (hq.2 hd)
    · have hsteady := ((hs'.trans hr).mono fun _ _ h => h.1).steady
      have hord := hsteady.ordered
      exact ⟨hq.1.step hord.ids hsteady.filed hst, fun hd' =>
        Process.attached_step (hq.2 ha.2) hord.ids hord.flush hst hd'⟩
    · have hc := hcons (.refl (s := s))
      obtain ⟨d, _⟩ := s
      cases hp
      exact ⟨hk, fun hd => (hc.files hd).2⟩
  obtain ⟨d, _ | q⟩ := t
  · exact hall
  · exact hall.1

theorem Retains.kept (h : Retains s t) (hs : Reach NoFailure s) (hp : s.proc = some p)
    (hk : p.Kept s.dir x) (hq : t.proc = some q) : q.Kept t.dir x := by
  cases h with
  | inl h =>
      obtain ⟨q', hq', hk⟩ := h.kept hs hp hk
      cases hq.symm.trans hq'
      exact hk
  | inr h =>
      have hk := h.1.kept_clean hs h.2 hp hk
      obtain ⟨d, _⟩ := t
      cases hq
      exact hk

/-- A visible version stays visible. -/
theorem Retains.visible (h : Retains s t) (hs : Reach NoFailure s) (hp : s.proc = some p)
    (hx : x ∈ s.dir.hist) (hle : x.2.1 ≤ p.oracle.visible) (hq : t.proc = some q) :
    x.2.1 ≤ q.oracle.visible := by
  cases h with
  | inl h =>
      obtain ⟨q', hq', hle⟩ := h.along_steady (I := fun _ q => x.2.1 ≤ q.oracle.visible) hs hp
        (fun _ _ _ _ _ _ hst hle hs =>
          hle.trans (Process.visible_le hst.ordered.conflicts hs)) hle
      cases hq.symm.trans hq'
      exact hle
  | inr h =>
      obtain ⟨h, hd⟩ := h
      have hs' := hs.clean (h.refused hd)
      have hall : t.Holds (fun d => x ∈ d.hist) fun d q => x ∈ d.hist ∧ x.2.1 ≤ q.oracle.visible := by
        refine (h.clean hd).holds (fun d q hr ha hx ho => ⟨hx, ?_⟩) (fun d q hq => hq.1)
          (fun d q a o d' q' hr ha hq hst => ⟨hist_of_step hst hq.1, ?_⟩) ?_
        · have hF := (hs'.trans hr).consistent_clean ha.2
          exact (Process.opened hF ho).hist_le hF ⟨x.2.2, hx⟩
        · have hsteady := ((hs'.trans hr).mono fun _ _ h => h.1).steady
          exact hq.2.trans (Process.visible_le hsteady.ordered.conflicts hst)
        · obtain ⟨d, _⟩ := s
          cases hp
          exact ⟨hx, hle⟩
      obtain ⟨d, _⟩ := t
      cases hq
      exact hall.2

/-- `x` has been written by a commit whose record is complete. -/
def Committed (s : Sys) (x : Version) : Prop :=
  ∃ t p c ts, Reach NoFailure t ∧ t.proc = some p ∧ p.commit.durable = some (c, ts) ∧
    Retains t s ∧ ∃ e ∈ c.buffer.batch ts, e.version = x

/-- `x` has been written by a commit that has returned `Ok`. -/
def Acknowledged (s : Sys) (x : Version) : Prop :=
  ∃ t a u p c ts, Reach NoFailure t ∧ t.proc = some p ∧ p.commit.acknowledges a = some (c, ts) ∧
    step t a = some (u, .committed (.ok ())) ∧ Retains u s ∧ ∃ e ∈ c.buffer.batch ts, e.version = x

/-- A call of `DB::flush` made in `s` may have returned `Ok` in `w`: its `Oracle::freeze` returns with the
action between `t` and `u`, and the last `flush_oldest` finds no frozen memtable in `v`.  Whatever the
tasks do in between, its own flushes included, is part of the runs. -/
def FlushReturns (s w : Sys) : Prop :=
  ∃ p t a u v q, s.proc = some p ∧ Run (Alive NoFailure) s t ∧
    step t a = some (u, .froze (.ok ())) ∧ Run (Alive NoFailure) u v ∧
      v.proc = some q ∧ q.flush = .free ∧ q.state.frozen = [] ∧ Run (Alive NoFailure) v w

theorem Committed.kept (h : Committed s x) (hp : s.proc = some p) : p.Kept s.dir x := by
  obtain ⟨t, q, c, ts, ht, hq, hc, hr, e, he, rfl⟩ := h
  refine hr.kept ht hq ?_ hp
  have hst := ht.steady
  obtain ⟨d, _⟩ := t
  cases hq
  exact hst.placed.durable c ts hc e he

omit [Crc32] in
theorem CommitLock.of_acknowledges {l : CommitLock} {c : Commit} {ts : ℕ}
    (h : l.acknowledges a = some (c, ts)) :
    l.durable = some (c, ts) ∧ l.finished = some (c, ts) ∧ a.fails = false := by
  unfold acknowledges at h
  split at h
  · exact ⟨h, h, rfl⟩
  · exact ⟨h, h, rfl⟩
  · cases h

theorem Acknowledged.kept (h : Acknowledged s x) (hp : s.proc = some p) :
    p.Kept s.dir x ∧ x.2.1 ≤ p.oracle.visible := by
  obtain ⟨t, a, u, q, c, ts, ht, hq, hc, hst, hr, e, he, rfl⟩ := h
  obtain ⟨hdur, hfin, ha⟩ := CommitLock.of_acknowledges hc
  have hsteady := ht.steady
  have hrec := ht.recorded
  have hu := ht.tail (a := a) ha hst
  obtain ⟨d, _⟩ := t
  cases hq
  have hsteady : q.Steady d := hsteady
  cases sysStep_of_eq hst with
  | @step _ d' _ q' _ _ hs =>
      have hk := hsteady.placed.durable c ts hdur e he
      have hle := hsteady.placed.visible c ts hfin e he
      exact ⟨hr.kept hu rfl (hk.step hsteady.ordered.ids hsteady.filed hs) hp,
        hr.visible hu rfl (hist_of_step hs (hrec c ts hdur e he))
          (hle.trans (Process.visible_le hsteady.ordered.conflicts hs)) hp⟩

theorem fails_of_froze (h : step t a = some (u, .froze (.ok ()))) :
    a.fails = false := by
  generalize ho : Out.froze (.ok ()) = o at h
  cases sysStep_of_eq h with
  | step hs =>
      cases hs with
      | freezeEmpty | swap => rfl
      | _ => cases ho
  | _ => cases ho

/-- What is visible when `Oracle::freeze` returns is apart from what is committed later. -/
theorem newer_of_froze (ht : Reach NoFailure t) (hp : t.proc = some p)
    (hst : step t a = some (u, .froze (.ok ()))) (hk : p.Kept t.dir x)
    (hle : x.2.1 ≤ p.oracle.visible) : Reach NoFailure u ∧ ∃ q n m, u.proc = some q ∧
      q.Kept u.dir x ∧ x.2.1 ≤ n ∧ q.Newer n m u.dir := by
  have hsteady := ht.steady
  obtain ⟨d, _⟩ := t
  cases hp
  have hsteady : p.Steady d := hsteady
  cases sysStep_of_eq hst with
  | @step _ d' _ p' _ _ hs =>
      have hnew := Process.newer_of_froze hsteady hs
      exact ⟨ht.tail (fails_of_froze hst) hst, p', _, _, rfl,
        hk.step hsteady.ordered.ids hsteady.filed hs,
        hle.trans (Process.visible_le hsteady.ordered.conflicts hs), hnew⟩

/-- Once no memtable is frozen, what is older is in tables only. -/
theorem Process.Newer.tabled {n m : ℕ} (h : p.Newer n m d)
    (hfr : p.state.frozen = []) (hk : p.Kept d x) (hx : x.2.1 ≤ n) : d.Tabled x := by
  apply hk.resolve_right
  rintro ⟨l, hl, hid, hr, -⟩
  have hid : l.id = p.state.memTable := by
    rw [State.ids, hfr] at hid
    exact List.mem_singleton.mp hid
  exact hx.not_gt (h.logs l hl (hid ▸ h.active) x hr)

/-- What is visible when a flush is called is in a table when it returns, and nowhere else. -/
theorem FlushReturns.tabled (h : FlushReturns s w) (hs : Reach NoFailure s) (hp : s.proc = some p)
    (hk : p.Kept s.dir x) (hle : x.2.1 ≤ p.oracle.visible) : ∃ q, w.proc = some q ∧
      w.dir.Tabled x ∧ (∀ id ∈ q.state.ids, x ∉ layer (q.mems id).entries) ∧
        ∀ l ∈ w.dir.wal, ¬ l.Records x := by
  obtain ⟨_, t, a, u, v, pv, _, ht, hst, hv, hpv, hfree, hfrozen, hw⟩ := h
  -- up to the freeze
  obtain ⟨pt, hpt, hk, hle⟩ := ht.along_steady
    (I := fun d q => q.Kept d x ∧ x.2.1 ≤ q.oracle.visible) hs hp
    (fun d q a o d' q' hst hi hs => ⟨hi.1.step hst.ordered.ids hst.filed hs,
      hi.2.trans (Process.visible_le hst.ordered.conflicts hs)⟩) ⟨hk, hle⟩
  obtain ⟨hu, pu, n, m, hpu, hk, hx, hnew⟩ :=
    newer_of_froze (hs.trans (ht.mono fun _ _ h => h.1)) hpt hst hk hle
  -- up to the last look at the frozen memtables
  obtain ⟨pv', hpv', hk, hnew⟩ := hv.along_steady
    (I := fun d q => q.Kept d x ∧ q.Newer n m d) hu hpu
    (fun d q a o d' q' hst hi hs => ⟨hi.1.step hst.ordered.ids hst.filed hs,
      hi.2.step hst hs⟩) ⟨hk, hnew⟩
  cases hpv.symm.trans hpv'
  have hvr := hu.trans (hv.mono fun _ _ h => h.1)
  have hids : pv.Ids v.dir [] := by
    have hsteady := hvr.steady
    obtain ⟨d, _⟩ := v
    cases hpv
    exact hsteady.ordered.ids
  have htab := hnew.tabled hfrozen hk hx
  have hclr := hnew.cleared hids hfree hfrozen
  -- and from then on
  obtain ⟨q, hq, htab, hclr, hnew⟩ := hw.along_steady
    (I := fun d q => d.Tabled x ∧ Process.Cleared m d ∧ q.Newer n m d) hvr hpv
    (fun d q a o d' q' hst hi hs => ⟨hi.1.mono (Process.ss_step hst.filed.ids hs),
      hi.2.1.step hi.2.2 hst.ordered.ids hs, hi.2.2.step hst hs⟩) ⟨htab, hclr, hnew⟩
  have hids : q.Ids w.dir [] := by
    have hsteady := (hvr.trans (hw.mono fun _ _ h => h.1)).steady
    obtain ⟨d, _⟩ := w
    cases hq
    exact hsteady.ordered.ids
  exact ⟨q, hq, htab, hnew.notMem hclr hids hx⟩

theorem FlushReturns.run (h : FlushReturns s w) : Run NoFailure s w := by
  obtain ⟨_, t, a, u, v, q, _, ht, hst, hv, _, _, _, hw⟩ := h
  have hle : ∀ {s t}, Run (Alive NoFailure) s t → Run NoFailure s t := fun h => h.mono fun _ _ h => h.1
  exact (((hle ht).tail (fails_of_froze hst) hst).trans (hle hv)).trans (hle hw)

/-- **A flush is complete**: where no I/O operation fails, when `DB::flush` returns `Ok` everything that
was acknowledged before the call is in a table or superseded there, and in no frozen memtable and no log;
every other committed version is in the log of a memtable in use. -/
theorem flush_complete (hs : Reach NoFailure s) (h : FlushReturns s w) :
    ∃ q, w.proc = some q ∧
      (∀ x, Acknowledged s x → w.dir.Tabled x ∧
        (∀ id ∈ q.state.ids, x ∉ layer (q.mems id).entries) ∧ ∀ l ∈ w.dir.wal, ¬ l.Records x) ∧
      ∀ x, Committed w x → w.dir.Tabled x ∨ ∃ l ∈ w.dir.wal, l.id ∈ q.state.ids ∧ l.Records x ∧
        (w.dir.refused = false → l.Intact) := by
  obtain ⟨p, hp⟩ : ∃ p, s.proc = some p := by
    obtain ⟨p, _, _, _, _, _, hp, _⟩ := h
    exact ⟨p, hp⟩
  have hw := hs.trans h.run
  obtain ⟨q, hq⟩ : ∃ q, w.proc = some q := by
    obtain ⟨_, _, _, _, v, q, _, _, _, _, hv, _, _, hw⟩ := h
    obtain ⟨q, hq, _⟩ := hw.along (I := fun _ _ => True) (fun _ _ ha => ha.2)
      (fun _ _ _ _ _ _ _ _ _ _ => trivial) hv trivial
    exact ⟨q, hq⟩
  refine ⟨q, hq, ?_, ?_⟩
  · intro x hx
    obtain ⟨hk, hle⟩ := hx.kept hp
    obtain ⟨q', hq', hall⟩ := h.tabled hs hp hk hle
    cases hq.symm.trans hq'
    exact hall
  · intro x hx
    refine (hx.kept hq).imp_right fun ⟨l, hl, hid, hr, _⟩ => ⟨l, hl, hid, hr, fun hd => ?_⟩
    have hc := (hw.clean hd).consistent_clean
    obtain ⟨d, _⟩ := w
    cases hq
    exact (hc.files hd).1.intact l hl

end runs

/-- The last action of a commit that fills the memtable. -/
def acknowledgedFull : Option (Sys × Process × Commit × ℕ × Entry × Sys × Out) := do
  let r ← @exec crc32 NoFailure _ .init
    (.open :: ((setActs keyK textOne).dropLast ++ [Act.createLog]))
  let p ← r.proc
  let x ← p.commit.acknowledges .swap
  let e ← (x.1.buffer.batch x.2).head?
  let y ← @step crc32 r .swap
  return (r, p, x.1, x.2, e, y)

/-- Another commit, the background loop that starts to flush the memtable, and a call of `DB::flush`, with a
third commit while it flushes. -/
def flushReturnsBusy (s : Sys) : Option (Sys × Sys × Out × Sys × Process) := do
  let t ← @exec crc32 (Alive NoFailure) _ s
    (setActs keyK textTwo ++ [Act.pick, .freeze, .writeTable, .createLog])
  let y ← @step crc32 t .swap
  let v ← @exec crc32 (Alive NoFailure) _ y.1
    (setActs keyK textOne ++ [Act.install, .retire, .removeLog] ++ flushActs)
  let q ← v.proc
  return (t, y.1, y.2, v, q)

theorem acknowledged_of_full {r s : Sys} {p : Process} {c : Commit} {ts : ℕ} {e : Entry}
    (h : acknowledgedFull = some (r, p, c, ts, e, s, .committed (.ok ()))) :
    @Reach crc32 NoFailure s ∧ (∃ q, s.proc = some q) ∧ @Acknowledged crc32 s e.version := by
  unfold acknowledgedFull at h
  simp only [bind, Option.bind_eq_some_iff] at h
  obtain ⟨_, hr, _, hp, ⟨_, _⟩, hc, _, he, ⟨_, _⟩, hs, hx⟩ := h
  cases hx
  have hreach := @reach_of_exec crc32 _ _ _ _ hr
  refine ⟨@Run.tail crc32 _ _ _ _ .swap _ hreach rfl hs, ?_, r, .swap, _, p, _, _, hreach, hp, hc, hs,
    .inl (@Run.refl crc32 _ _), e, List.mem_of_head? he, rfl⟩
  cases @sysStep_of_eq crc32 _ _ _ _ hs with
  | step => exact ⟨_, rfl⟩

theorem flushReturns_of_busy {s t u v : Sys} {p q : Process} (hp : s.proc = some p)
    (h : flushReturnsBusy s = some (t, u, .froze (.ok ()), v, q)) (hf : q.flush = .free)
    (hfr : q.state.frozen = []) : v.proc = some q ∧ @FlushReturns crc32 s v := by
  unfold flushReturnsBusy at h
  simp only [bind, Option.bind_eq_some_iff] at h
  obtain ⟨_, ht, ⟨_, _⟩, hu, _, hv, _, hq, hx⟩ := h
  cases hx
  exact ⟨hq, p, t, .swap, _, v, q, hp, @run_of_exec crc32 _ _ _ _ _ _ (@Run.refl crc32 _ s) ht, hu,
    @run_of_exec crc32 _ _ _ _ _ _ (@Run.refl crc32 _ _) hv, hq, hf, hfr, @Run.refl crc32 _ v⟩

def flushCompleteBusy : Option (Sys × Sys × Process × Entry) := do
  let x ← acknowledgedFull
  let y ← flushReturnsBusy x.2.2.2.2.2.1
  match x, y with
  | (_, _, _, _, e, s, .committed (.ok ())), (_, _, .froze (.ok ()), v, q) =>
    match q.flush, q.state.frozen, v.dir.ss.length, v.dir.wal.length with
    | .free, [], 2, 1 => return (s, v, q, e)
    | _, _, _, _ => none
  | _, _ => none

theorem flush_complete_busy : ∃ (s w : Sys) (q : Process) (x : Version),
    w.proc = some q ∧ w.dir.ss.length = 2 ∧ w.dir.wal.length = 1 ∧ @Acknowledged crc32 s x ∧
      @FlushReturns crc32 s w ∧ @Dir.Tabled crc32 w.dir x ∧
        (∀ id ∈ q.state.ids, x ∉ layer (q.mems id).entries) ∧ ∀ l ∈ w.dir.wal, ¬ l.Records x := by
  have h : flushCompleteBusy.isSome := by decide +kernel
  obtain ⟨⟨s, w, q, e⟩, h⟩ := Option.isSome_iff_exists.mp h
  unfold flushCompleteBusy at h
  simp only [bind, Option.bind_eq_some_iff] at h
  obtain ⟨_, hx, _, hy, h⟩ := h
  split at h
  case h_2 => cases h
  case h_1 =>
    split at h
    case h_2 => cases h
    case h_1 hf hfr hss hw =>
      cases h
      obtain ⟨hs, ⟨p, hp⟩, hack⟩ := acknowledged_of_full hx
      obtain ⟨hq, hret⟩ := flushReturns_of_busy hp hy hf hfr
      obtain ⟨q', hq', hall, -⟩ := @flush_complete crc32 s w hs hret
      cases hq.symm.trans hq'
      exact ⟨s, w, q, e.version, hq, hss, hw, hack, hret, hall _ hack⟩

end LowDB
