import LowDB.Engine.Transactions

/-! # Snapshot isolation

What the clients of the engine see, as labels of `Isolation.Step`: a transaction begins when it takes its
timestamp and commits when it is published, whatever the call returns later; one that is cut off after
its commit record commits with the end of the process; a call of `DB::get` or a snapshot is a transaction
that writes nothing.

Every run is a run of the abstract database with the same labels, through crashes and reopenings
(`snapshot_isolation`), and a transaction that commits a key has read its newest version
(`no_lost_update`).  Left out are the failures and the missed lookups that are known to break it
(`Isolable`). -/

namespace LowDB

open Layered Isolation

/-! ### Labels -/

/-- The publication of a commit. -/
def Commit.label (c : Commit) (ts : ℕ) : Label Str Str :=
  match c.handle with
  | some i => .commit i ts
  | none => .put c.buffer.writes ts

namespace CommitLock

/-- The commit whose record is written. -/
def lasting : CommitLock → List (Label Str Str)
  | sealed c ts | recorded c ts => [c.label ts]
  | _ => []

/-- The end of a commit that returns an error. -/
def leaves (l : CommitLock) : List (Label Str Str) := l.handle.toList.map .leave

end CommitLock

/-- A call of `DB::get` ends with its answer. -/
def Reader.leaves (r : Reader) (i : ℕ) : List (Label Str Str) :=
  match r.kind with
  | .get _ => [.leave i]
  | _ => []

namespace Process

/-- What an action shows to the clients. -/
def labels (p : Process) : Act → Out → List (Label Str Str)
  | .snapshot, _ | .transaction, _ | .get _, _ => [.begin p.readers.length]
  | .write i k v, _ => [.write i k v.text]
  | .search i k, .got (.ok v) | .searchTables i k, .got (.ok v) =>
    .read i k (identify v) :: ((p.reader i).map fun r => r.leaves i).getD []
  | .commit i, .committed (.ok _) => [.leave i]
  | .commit i, .committed (.error _) => [.conflict i]
  | .append, .committed _ | .appendFails _ _, _ => p.commit.leaves
  | .publish, _ => p.commit.lasting
  | .drop i, _ | .cancel i, _ => [.leave i]
  | _, _ => []

end Process

/-- What the step from `s` to `t` shows: opening starts a process, and a crash ends it. -/
def Sys.labels (s : Sys) (a : Act) (o : Out) (t : Sys) : List (Label Str Str) :=
  match s.proc, t.proc with
  | some p, some _ => p.labels a o
  | some p, none => p.commit.lasting ++ [.stop]
  | none, some p => [.start p.oracle.visible]
  | none, none => []

/-- Runs, with what they show. -/
inductive Traced [Crc32] (P : Sys → Act → Prop) (s : Sys) : List (Label Str Str) → Sys → Prop
  | refl : Traced P s [] s
  | tail {ls : List (Label Str Str)} {t u : Sys} {a : Act} {o : Out} (hr : Traced P s ls t)
      (hP : P t a) (h : step t a = some (u, o)) : Traced P s (ls ++ t.labels a o u) u

/-- No append of a commit record fails, no log is left over, and only files fit for it are opened; a
handle is not written to, committed or dropped while a lookup through it goes on, which the borrow
checker sees to; and no lookup has missed its key. -/
structure Isolable [Crc32] (s : Sys) (a : Act) : Prop where
  record : ∀ p ∈ s.proc, ∀ w b, a = .appendFails w b → p.commit.isLogged = false
  remove : a ≠ .removeLogFails
  opens : a.isOpen → s.dir.Opens
  moves : ∀ p ∈ s.proc, ∀ i ∈ a.moves, ∀ r ∈ p.reader i, r.pending = []
  seen : ∀ p ∈ s.proc, ∀ i k, a = .search i k ∨ a = .searchTables i k → ∀ r ∈ p.reader i, ¬ r.Missed k

namespace Process

variable {d d' : Dir} {p p' : Process} {a : Act} {o : Out} {rest : List ℕ} {i : ℕ} {r : Reader}
  {k : Str} {A : Isolation.State Str Str}

/-! ### The abstract database -/

/-- The state of the abstract database. -/
structure Shows (d : Dir) (p : Process) (A : Isolation.State Str Str) : Prop where
  clock : A.clock = p.oracle.visible
  hist : A.hist = (p.store d).hist
  txs : A.txs = txsOf p.readers p.commit

namespace Shows

variable {T : ℕ → Option (Tx Str Str)} {ls : List (Label Str Str)} {c : Commit} {ts : ℕ} {t : Tx Str Str}

/-- Only the transactions change. -/
theorem acts (hA : p.Shows d A)
    (hh : (p'.store d').hist = (p.store d).hist ∧ p'.oracle.visible = p.oracle.visible)
    (hr : Isolation.Run A ls { A with txs := T }) (ht : txsOf p'.readers p'.commit = T) :
    ∃ A', Isolation.Run A ls A' ∧ p'.Shows d' A' :=
  ⟨_, hr, hA.clock.trans hh.2.symm, hA.hist.trans hh.1.symm, ht.symm⟩

theorem tx_of_reader (hA : p.Shows d A) (hr : p.reader i = some r) (hu : r.consumed = false) :
    A.txs i = some ⟨r.readTs, r.buffer.writes⟩ := by
  rw [hA.txs, txsOf_of_getElem? (getElem?_of_reader hr), Reader.tx, hu]
  rfl

theorem quiet (hA : p.Shows d A)
    (hh : (p'.store d').hist = (p.store d).hist ∧ p'.oracle.visible = p.oracle.visible)
    (ht : txsOf p'.readers p'.commit = txsOf p.readers p.commit) :
    ∃ A', Isolation.Run A [] A' ∧ p'.Shows d' A' :=
  hA.acts hh .nil (ht.trans hA.txs.symm)

/-- A reader takes its timestamp. -/
theorem begins (hA : p.Shows d A) (o : Oracle) (ho : o.visible = p.oracle.visible)
    (kind : Reader.Kind) :
    ∃ A', Isolation.Run A [.begin p.readers.length] A' ∧ Shows d { p with
      oracle := o
      readers := p.readers ++ [some (.started kind p.oracle.visible)] } A' := by
  have hnew : A.txs p.readers.length = none := by
    rw [hA.txs, txsOf, List.getElem?_eq_none le_rfl]
    rfl
  refine ⟨_, .one (.begin hnew), hA.clock.trans ho.symm, ?_, ?_⟩
  · rw [hA.hist, store, store, ho]
  · rw [hA.txs, hA.clock]
    exact (txsOf_append kind _).symm

/-- A commit ends without being published. -/
theorem aborts (hA : p.Shows d A) (hi : p.Isolated d)
    (hh : (p'.store d').hist = (p.store d).hist ∧ p'.oracle.visible = p.oracle.visible)
    (hc : p.commit.pending = some c) (hr : p'.readers = p.readers) (hc' : p'.commit = .free) :
    ∃ A', Isolation.Run A p.commit.leaves A' ∧ p'.Shows d' A' := by
  unfold CommitLock.leaves
  rw [handle_of_pending hc]
  cases hi' : c.handle with
  | none =>
      refine hA.quiet hh ?_
      rw [hr, hc']
      apply txsOf_lock
      intro j
      rw [pendingOf_eq hc, hi']
      rfl
  | some i =>
      obtain ⟨r, hr', hu, -⟩ := hi.held i c.buffer (by rw [pendingOf_eq hc, if_pos hi'])
      refine hA.acts hh (.one .leave) ?_
      rw [hr, hc', hA.txs]
      exact txsOf_end hc rfl hi' hr' hu

/-- A commit is published, or its record is there when the process ends. -/
theorem commits (hA : p.Shows d A) (hi : p.Isolated d) (hco : p.Conflicts)
    (hc : p.commit.pending = some c) (hts : p.commit.openTs = some ts) :
    ∃ A', Isolation.Step A (c.label ts) A' ∧ A'.clock = ts ∧
      A'.hist = (p.store d).hist ∪ c.buffer.writes.at ts ∧
      ∀ l : CommitLock, l.pending = none → A'.txs = txsOf p.readers l := by
  have hlt : A.clock < ts := hA.clock ▸ (hco.openTs ts hts).1
  unfold Commit.label
  cases hi' : c.handle with
  | none =>
      refine ⟨_, .put hlt, rfl, by rw [hA.hist], fun l hl => ?_⟩
      refine hA.txs.trans (txsOf_lock fun j => ?_)
      rw [pendingOf_eq hc, hi', pendingOf_of_none hl]
      rfl
  | some i =>
      have hb : p.commit.pendingOf i = some c.buffer := by rw [pendingOf_eq hc, if_pos hi']
      obtain ⟨r, hr, hu, hle⟩ := hi.held i c.buffer hb
      have ht : A.txs i = some ⟨r.readTs, c.buffer.writes⟩ := by
        rw [hA.txs, txsOf_of_getElem? hr, hb, Reader.tx, if_pos hu]
        rfl
      have hu' : Tx.Undisturbed ⟨r.readTs, c.buffer.writes⟩ A.hist := fun k hk n hn =>
        hle k (Buffer.writes_ne_none.mp hk) n (hA.hist ▸ hn)
      refine ⟨_, .commit ht hlt hu', rfl, by rw [hA.hist], fun l hl => ?_⟩
      show Function.update A.txs i none = _
      rw [hA.txs]
      exact (txsOf_end hc hl hi' hr hu).symm

/-- A lookup is answered; `r'` is the reader without it. -/
theorem reads (hA : p.Shows d A) (hr : p.reader i = some r) (ht : A.txs i = some t) (r' : Reader)
    (ht' : r'.tx (p.commit.pendingOf i) = r.tx (p.commit.pendingOf i)) (hk : r'.kind = r.kind)
    {v : Option Str} (hv : t.Reads A.hist k v) :
    ∃ A', Isolation.Run A (.read i k v :: ((p.reader i).map fun r => r.leaves i).getD []) A' ∧
      (p.setReader i r'.answered).Shows d A' := by
  have hread : Isolation.Run A [.read i k v] A := .one (.read ht hv)
  rw [hr, Option.map_some, Option.getD_some]
  unfold Reader.leaves Reader.answered
  rw [hk]
  cases r.kind with
  | get =>
      refine ⟨_, hread.append (.one .leave), hA.clock, hA.hist, ?_⟩
      show Function.update A.txs i none = _
      rw [hA.txs]
      exact (txsOf_set (o := none) (getElem?_of_reader hr)).symm
  | snapshot =>
      exact ⟨A, hread, hA.clock, hA.hist, hA.txs.trans (txsOf_set_same (getElem?_of_reader hr) ht').symm⟩
  | transaction =>
      exact ⟨A, hread, hA.clock, hA.hist, hA.txs.trans (txsOf_set_same (getElem?_of_reader hr) ht').symm⟩

end Shows

section step
variable [Crc32]

/-- A lookup finds what the transaction reads. -/
theorem reads_of_got (hA : p.Shows d A) (hsv : p.Serves d) (hr : p.reader i = some r)
    (hb : r.buffer.get k = none) (hm : ¬ r.Missed k)
    (ha : a = .search i k ∧ r.buffer.get k = none ∨ a = .searchTables i k)
    {res : DbResult (Option Str)} (hs : Step d p a (.got res) d' p') :
    ∃ v, res = .ok v ∧ Tx.Reads ⟨r.readTs, r.buffer.writes⟩ A.hist k (identify v) := by
  obtain ⟨v, o, hres, hv, -, hans⟩ := hsv.got hr ha hs
  have hw : r.buffer.writes k = none := by rw [Buffer.writes, hb, Option.map_none]
  have ho : Answers A.hist k r.readTs o := by
    rw [hA.hist]
    refine (hans hm).congr fun n w hn => ?_
    exact ⟨fun hx => ⟨hx, hn.trans (hsv.readTs_le hr)⟩, fun hx => hx.1⟩
  exact ⟨v, hres, hv ▸ Tx.reads_start (t := ⟨r.readTs, r.buffer.writes⟩) hw ho⟩

/-- Every action is a run of the abstract database with the labels it shows. -/
theorem shows_step (hA : p.Shows d A) (hi : p.Isolated d) (hc : p.Consistent d rest)
    (hsv : p.Serves d)
    (hm : ∀ i k, a = .search i k ∨ a = .searchTables i k → ∀ r ∈ p.reader i, ¬ r.Missed k)
    (hs : Step d p a o d' p') :
    ∃ A', Isolation.Run A (p.labels a o) A' ∧ p'.Shows d' A' := by
  have hco := hc.conflicts
  have hh := hist_step hc hs
  have hpending := fun (hne : a ≠ .publish) (hr : p'.readers = p.readers)
      (hl : p'.commit.pending = p.commit.pending) =>
    @Shows.quiet d d' p p' A hA (hh hne) (hr ▸ txsOf_pending hl)
  cases hs with
  | set hl =>
      refine hA.quiet (hh nofun) (txsOf_lock fun i => ?_)
      rw [hl, pendingOf_eq rfl]
      rfl
  | @commitEmpty i r tx st hr hk hst hu hb =>
      refine hA.acts (hh nofun) (.one .leave) ?_
      rw [hA.txs]
      exact txsOf_consume (getElem?_of_reader hr) (hi.pendingOf_eq_none (getElem?_of_reader hr) hu) _
  | @conflict i r tx st hr hk hst hu hb hl hx =>
      refine hA.acts (hh nofun) (.one (.conflict (hA.tx_of_reader hr hu) fun hund => ?_)) ?_
      · obtain ⟨k, hk, ts, hts, hlt⟩ := Oracle.conflict_iff.mp hx
        have hpub := hco.recent k ts hts
        rw [hl] at hpub
        have hn := hi.pub (k, ts) (hpub.resolve_right fun h => nomatch h)
        exact hlt.not_ge (hund k (Buffer.writes_ne_none.mpr hk) ts (hA.hist ▸ hn))
      · rw [hA.txs]
        exact txsOf_consume (getElem?_of_reader hr) (hi.pendingOf_eq_none (getElem?_of_reader hr) hu) _
  | @commit i r tx st hr hk hst hu hb hl hx =>
      refine hA.quiet (hh nofun) ?_
      rw [hl]
      exact txsOf_commit (getElem?_of_reader hr) hu tx _
  | stamp hl => exact hpending nofun rfl (by rw [hl]; rfl)
  | appendBegin hl => exact hpending nofun rfl (by rw [hl]; rfl)
  | appendBatch hl => exact hpending nofun rfl (by rw [hl]; rfl)
  | refuse hl => exact hA.aborts hi (hh nofun) (by rw [hl]; rfl) rfl rfl
  | appendCommit hl => exact hpending nofun rfl (by rw [hl]; rfl)
  | appendFails ht =>
      obtain ⟨c, hc⟩ := pending_of_appendTs ht
      exact hA.aborts hi (hh nofun) hc rfl rfl
  | put hl => exact hpending nofun rfl (by rw [hl]; rfl)
  | record hl => exact hpending nofun rfl (by rw [hl]; rfl)
  | publish hl =>
      obtain ⟨A', hst, hclock, hhist, htxs⟩ := hA.commits hi hco (by rw [hl]; rfl) (by rw [hl]; rfl)
      refine ⟨A', ?_, hclock, hhist.trans (hist_publish hc.phase hco hl rfl).symm, htxs _ rfl⟩
      show Isolation.Run A p.commit.lasting A'
      rw [hl]
      exact .one hst
  | watermark hl => exact hpending nofun rfl (by rw [hl]; rfl)
  | prune hl => exact hpending nofun rfl (by rw [hl]; rfl)
  | finish hl => exact hpending nofun rfl (by rw [hl]; rfl)
  | freeze hl => exact hpending nofun rfl (by rw [hl]; rfl)
  | @createLog o hl =>
      cases o with
      | none => exact hpending nofun rfl (by rw [hl]; rfl)
      | some c => exact hpending nofun rfl (by rw [hl]; rfl)
  | createLogFails hl => exact hpending nofun rfl (by rw [hl]; rfl)
  | freezeFails hl => exact hpending nofun rfl (by rw [hl]; rfl)
  | swap hl => exact hpending nofun rfl (by rw [hl]; rfl)
  | retire => exact hA.quiet (hh nofun) (txsOf_map_miss _)
  | snapshot => exact hA.begins p.oracle.begin rfl _
  | transaction => exact hA.begins p.oracle.begin.nextTxId rfl _
  | get => exact hA.begins p.oracle rfl _
  | capture hr => exact hA.quiet (hh nofun) (txsOf_set_same (getElem?_of_reader hr) rfl)
  | @write i r tx st k v hr hk hst hu =>
      refine hA.acts (hh nofun) (.one (.write (hA.tx_of_reader hr hu))) ?_
      rw [hA.txs]
      exact txsOf_write (getElem?_of_reader hr) hu k v
  | @searchBuffer i r st k v hr hst ha hb =>
      have hu := consumed_of_asks (hi.orderly _ _ (getElem?_of_reader hr)) ha
      have hw : r.buffer.writes k = some v.text := by rw [Buffer.writes, hb, Option.map_some]
      have hv : identify (Lookup.ofValue v).value = v.text := by
        rw [identify_value, Lookup.text_ofValue, Option.join_some]
      have hleaves : r.leaves i = [] := by
        unfold Reader.leaves
        split
        case h_1 hk =>
          have hempty := hsv.buffers i r hr fun tx h => nomatch hk.symm.trans h
          rw [hempty] at hb
          cases hb
        case h_2 => rfl
      refine ⟨A, ?_, hA⟩
      show Isolation.Run A (.read i k (identify (Lookup.ofValue v).value) ::
        ((p.reader i).map fun r => r.leaves i).getD []) A
      rw [hr, Option.map_some, Option.getD_some, hleaves, hv]
      exact .one (.read (hA.tx_of_reader hr hu) (Tx.reads_own hw A.hist))
  | searchAbsent hr => exact hA.quiet (hh nofun) (txsOf_set_same (getElem?_of_reader hr) rfl)
  | @searchMems i r st k l hr hst ha hb hl hne =>
      have hu := consumed_of_asks (hi.orderly _ _ (getElem?_of_reader hr)) ha
      have hgot := Step.searchMems (d := d) hr hst ha hb hl hne
      obtain ⟨v, hv, hreads⟩ := reads_of_got hA hsv hr hb (hm _ _ (.inl rfl) r hr) (.inl ⟨rfl, hb⟩) hgot
      cases hv
      exact hA.reads hr (hA.tx_of_reader hr hu) r rfl rfl hreads
  | @searchTables i r k hr hk =>
      obtain ⟨hu, hb⟩ := (hi.orderly _ _ (getElem?_of_reader hr)).pending k hk
      have hgot := Step.searchTables (d := d) hr hk
      obtain ⟨v, hv, hreads⟩ := reads_of_got hA hsv hr hb (hm _ _ (.inr rfl) r hr) (.inr rfl) hgot
      rw [hv]
      exact hA.reads hr (hA.tx_of_reader hr hu) { r with pending := r.pending.erase k } rfl rfl hreads
  | drop hr =>
      refine hA.acts (hh nofun) (.one .leave) ?_
      rw [hA.txs]
      exact txsOf_set (getElem?_of_reader hr)
  | cancel hr =>
      refine hA.acts (hh nofun) (.one .leave) ?_
      rw [hA.txs]
      exact txsOf_set (getElem?_of_reader hr)
  | _ => exact hA.quiet (hh nofun) rfl

/-- When a transaction is about to be published, no other version of a key of its buffer is newer than its
timestamp. -/
theorem undisturbed {c : Commit} {ts : ℕ} (hi : p.Isolated d) (hc : p.Consistent d rest)
    (hl : p.commit = .recorded c ts) (hh : c.handle = some i) (hk : k ∈ c.buffer.keys) :
    ∃ r, p.reader i = some r ∧ p.oracle.visible < ts ∧
      ∀ n, Holds d.histLayer k n → n < ts → n ≤ r.readTs := by
  have hph := hc.phase
  have hco := hc.conflicts
  have hpend : p.commit.pendingOf i = some c.buffer := by
    rw [hl, pendingOf_eq rfl, if_pos hh]
  obtain ⟨r, hr, -, hle⟩ := hi.held i c.buffer hpend
  refine ⟨r, by rw [reader, hr]; rfl, (hco.openTs ts (by rw [hl]; rfl)).1, ?_⟩
  rintro n ⟨w, hw⟩ hn
  rw [histLayer_eq hph hco, hl] at hw
  rcases hw with hw | hw
  · exact hle k hk n ⟨w, hw⟩
  · exact absurd (Buffer.time_of_layer_batch (hph.ts ts (by rw [hl]; rfl)) hw) hn.ne

/-- The process ends: a commit whose record is written is among the versions that are left. -/
theorem shows_crash (hA : p.Shows d A) (hi : p.Isolated d) (hc : p.Consistent d rest) :
    ∃ A', Isolation.Run A (p.commit.lasting ++ [.stop]) A' ∧ A'.hist = d.histLayer ∧
      A'.txs = fun _ => none := by
  have hph := hc.phase
  have hco := hc.conflicts
  have hall := histLayer_eq hph hco
  cases hl : p.commit with
  | «sealed» c ts =>
      obtain ⟨A', hst, -, hhist, -⟩ := hA.commits hi hco (by rw [hl]; rfl) (by rw [hl]; rfl)
      unfold Phase at hph
      rw [hl] at hall hph
      rw [← Buffer.layer_batch (hph.ts ts rfl)] at hhist
      exact ⟨_, (Isolation.Run.one hst).append (.one .stop), hhist.trans hall.symm, rfl⟩
  | recorded c ts =>
      obtain ⟨A', hst, -, hhist, -⟩ := hA.commits hi hco (by rw [hl]; rfl) (by rw [hl]; rfl)
      unfold Phase at hph
      rw [hl] at hall hph
      rw [← Buffer.layer_batch (hph.ts ts rfl)] at hhist
      exact ⟨_, (Isolation.Run.one hst).append (.one .stop), hhist.trans hall.symm, rfl⟩
  | _ =>
      have hall : d.histLayer = (p.store d).hist := by simpa [hl, CommitLock.sealedEntries] using hall
      exact ⟨_, .one .stop, hA.hist.trans hall.symm, rfl⟩

end step

end Process

/-! ### Runs -/

section runs
variable [Crc32] {s t : Sys} {ls : List (Label Str Str)}

theorem Isolable.tidy : Tidy Isolable where
  opens _ h := (h.opens rfl).1
  commits _ p w b h := h.record p rfl w b rfl

theorem Run.consistent_isolable (h : Reach Isolable s) :
    s.Holds (fun d => d.refused = false → Files d) fun d p => ∃ rest, p.Consistent d rest := by
  have hc := h.consistent Isolable.tidy fun _ _ ha => ha.remove rfl
  obtain ⟨d, p⟩ := s
  cases p with
  | none => exact hc
  | some p => exact ⟨[], hc⟩

theorem Run.serves_isolable (h : Reach Isolable s) :
    s.Holds (fun d => Functional d.histLayer) fun d p => p.Serves d :=
  h.serves (fun _ => Run.consistent_isolable) fun _ ha => ha.opens rfl

theorem Run.isolated (h : Reach Isolable s) :
    s.Holds (fun _ => True) fun d p => p.Isolated d := by
  refine h.holds (fun d p hr ha _ ho => ?_) (fun _ _ _ => trivial)
    (fun d p a o d' p' hr ha hi hs => ?_) trivial
  · have hop := Process.opened (hr.consistent_isolable (ha.opens rfl).1) ho
    unfold Process.Isolated
    rw [hop.published, hop.commit, hop.readers]
    exact .new _
  · obtain ⟨rest, hc⟩ := hr.consistent_isolable
    exact Process.isolated_step hi hc (ha.moves p rfl) hs

theorem Traced.run {P : Sys → Act → Prop} (h : Traced P s ls t) : Run P s t := by
  induction h with
  | refl => exact .refl
  | tail _ hP hs ih => exact .tail ih hP hs

/-- The state of the abstract database. -/
def Sys.Shows (s : Sys) (A : Isolation.State Str Str) : Prop :=
  s.Holds (fun d => A.hist = d.histLayer ∧ A.txs = fun _ => none) fun d p => p.Shows d A

/-- **Snapshot isolation**: what the clients see in a run, they see in a run of the abstract database,
which has the versions committed and the transactions of the engine.  So transactions read what was
committed when they began, and of two that write a common key one commits before the other begins. -/
theorem snapshot_isolation (h : Traced Isolable .init ls s) :
    ∃ A, Isolation.Run .init ls A ∧ s.Shows A ∧ Isolation.Inv A := by
  suffices hsim : ∃ A, Isolation.Run .init ls A ∧ s.Shows A by
    obtain ⟨A, hr, hA⟩ := hsim
    exact ⟨A, hr, hA, Isolation.Inv.init.run hr⟩
  induction h with
  | refl =>
      refine ⟨.init, .nil, ?_, rfl⟩
      exact (Set.eq_empty_iff_forall_notMem.mpr fun _ => List.not_mem_nil).symm
  | tail hr hP hs ih =>
      obtain ⟨A, hA, hsh⟩ := ih
      have hrun := hr.run
      cases sysStep_of_eq hs with
      | @opened d p ho =>
          have hF := hrun.consistent_isolable (hP.opens rfl).1
          have hop := Process.opened hF ho
          obtain ⟨hhist, htxs⟩ := hsh
          have hle : ∀ k n, Holds A.hist k n → n ≤ p.oracle.visible := fun k n hn =>
            hop.hist_le hF (hhist ▸ hn)
          refine ⟨_, hA.snoc (.start htxs hle), rfl, ?_, ?_⟩
          · show A.hist = _
            rw [hhist]
            ext ⟨k, n, v⟩
            exact ⟨fun hv => ⟨hv, hop.hist_le hF ⟨v, hv⟩⟩, fun hv => hv.1⟩
          · show A.txs = _
            rw [htxs, hop.readers]
            rfl
      | notOpened => exact ⟨A, hA.append .nil, hsh⟩
      | @crash d p =>
          obtain ⟨rest, hc⟩ := hrun.consistent_isolable
          obtain ⟨A', hA', hhist, htxs⟩ := Process.shows_crash hsh hrun.isolated hc
          exact ⟨A', hA.append hA', hhist, htxs⟩
      | step hst =>
          obtain ⟨rest, hc⟩ := hrun.consistent_isolable
          obtain ⟨A', hA', hsh'⟩ := Process.shows_step hsh hrun.isolated hc hrun.serves_isolable
            (hP.seen _ rfl) hst
          exact ⟨A', hA.append hA', hsh'⟩

/-- **No lost update**: when a transaction commits a key, what it read of the key before it wrote to it is
still the newest version. -/
theorem no_lost_update {s₀ : Sys} {p q : Process} {i ts : ℕ} {r : Reader} {k : Str} {a : Act}
    {c : Commit} {v : Option Str} (hs₀ : Reach Isolable s₀) (hp : s₀.proc = some p)
    (hr : p.reader i = some r) (hb : r.buffer.get k = none)
    (ha : a = .search i k ∨ a = .searchTables i k) (hread : Isolable s₀ a)
    (hgot : step s₀ a = some (s, .got (.ok v))) (ht : Run (Alive Isolable) s t) (hq : t.proc = some q)
    (hc : q.commit = .recorded c ts) (hi : c.handle = some i) (hkey : k ∈ c.buffer.keys) :
    t.dir.valueAt k (ts - 1) = identify v := by
  have hrun : Run (Alive Isolable) s₀ t :=
    (Run.tail .refl ⟨hread, by rcases ha with rfl | rfl <;> rfl⟩ hgot).trans ht
  have htr : Reach Isolable t := hs₀.trans (hrun.mono fun _ _ h => h.1)
  obtain ⟨q', hq', hl⟩ := Run.later hs₀ (fun _ => Run.consistent_isolable) hp hrun
  cases hq.symm.trans hq'
  have hsv := hs₀.serves_isolable
  have htv := htr.serves_isolable
  have hcons := htr.consistent_isolable
  have hiso := htr.isolated
  obtain ⟨d₀, p₀⟩ := s₀
  obtain ⟨d, q₀⟩ := t
  cases hp
  cases hq
  have hsv : p.Serves d₀ := hsv
  have htv : q.Serves d := htv
  have hl : Process.Later d₀ p d q := hl
  obtain ⟨rest, hcons⟩ : ∃ rest, q.Consistent d rest := hcons
  have hread : d₀.valueAt k r.readTs = identify v := by
    cases sysStep_of_eq hgot with
    | step hst =>
        obtain ⟨v', o, hres, hv, -, hans⟩ := hsv.got hr (ha.imp_left fun h => ⟨h, hb⟩) hst
        cases hres
        rw [hv, Dir.valueAt_of_answers hsv.hist (hans (hread.seen p rfl i k ha r hr))]
  obtain ⟨r', hr', hlt, hle⟩ := Process.undisturbed hiso hcons hc hi hkey
  have hts : r'.readTs = r.readTs := by
    have hlen := (List.getElem?_eq_some_iff.mp (Process.getElem?_of_reader hr)).1
    obtain ⟨r₀, hr₀, hcont⟩ := hl.reader i r' hlen hr'
    cases hr.symm.trans hr₀
    exact hcont.readTs
  rw [hts] at hle
  have hold : ∀ n, Holds d.histLayer k n → n ≤ ts - 1 → n ≤ r.readTs := fun n hn hn' =>
    hle n hn (by omega)
  have hvis : r.readTs ≤ ts - 1 := by
    have h₀ := hsv.readTs_le hr
    have h₁ := hl.visible
    omega
  obtain ⟨o, ho⟩ := exists_answers d.histLayer k r.readTs
  calc d.valueAt k (ts - 1)
      = o.bind Prod.snd := Dir.valueAt_of_answers htv.hist ((answers_later hold hvis).mpr ho)
    _ = d.valueAt k r.readTs := (Dir.valueAt_of_answers htv.hist ho).symm
    _ = d₀.valueAt k r.readTs := hl.valueAt_eq hsv.hist htv.hist (hsv.readTs_le hr)
    _ = identify v := hread

end runs

/-- Nothing fails, and no reader has missed a memtable or is looking a key up. -/
def Settled [Crc32] (s : Sys) (a : Act) : Prop :=
  Calm s a ∧ ∀ p ∈ s.proc, ∀ o ∈ p.readers, ∀ r ∈ o, r.retired = [] ∧ r.pending = []

instance [Crc32] (s : Sys) (a : Act) : Decidable (Settled s a) := inferInstanceAs (Decidable (_ ∧ _))

theorem Settled.isolable [Crc32] {s : Sys} {a : Act} (h : Settled s a) : Isolable s a where
  record _ _ _ _ ha := by
    have hf := h.1.1
    rw [ha] at hf
    cases hf
  remove ha := by
    have hf := h.1.1
    rw [ha] at hf
    cases hf
  opens := h.1.2
  moves p hp i _ r hr :=
    (h.2 p hp (some r) (List.mem_of_getElem? (Process.getElem?_of_reader hr)) r rfl).2
  seen p hp i k _ r hr := by
    rintro ⟨es, hes, -⟩
    have hret := (h.2 p hp (some r) (List.mem_of_getElem? (Process.getElem?_of_reader hr)) r rfl).1
    rw [hret] at hes
    cases hes

/-- The actions `as` in order, with what they show. -/
def trace [Crc32] (s : Sys) : List Act → Option (List (Label Str Str) × Sys)
  | [] => some ([], s)
  | a :: as =>
    if Settled s a then
      match step s a with
      | some (t, o) => (trace t as).map fun x => (s.labels a o t ++ x.1, x.2)
      | none => none
    else none

theorem traced_of_trace [Crc32] {s t u : Sys} {as : List Act} {ls ls' : List (Label Str Str)}
    (hr : Traced Isolable s ls t) (h : trace t as = some (ls', u)) :
    Traced Isolable s (ls ++ ls') u := by
  induction as generalizing t ls ls' with
  | nil =>
      cases h
      rwa [List.append_nil]
  | cons a as ih =>
      unfold trace at h
      split_ifs at h with hP
      split at h
      case h_1 t' o hs =>
        obtain ⟨⟨ls₁, u⟩, hu, he⟩ := Option.map_eq_some_iff.mp h
        cases he
        rw [← List.append_assoc]
        exact ih (hr.tail hP.isolable hs) hu
      case h_2 => cases h

/-- Two transactions that overlap and write `k`, and a snapshot afterwards. -/
def twoWriters : List Act :=
  [.open, .transaction, .capture 0, .write 0 keyK (.set textOne), .transaction, .capture 1,
    .write 1 keyK (.set textTwo), .commit 0, .stamp, .append, .append, .put, .append, .record, .publish,
    .watermark, .prune, .finish, .commit 1, .snapshot, .capture 2, .search 2 keyK]

/-- The second one is refused. -/
theorem snapshot_isolation_twoWriters : ∃ s ls A, @Traced crc32 (@Isolable crc32) .init ls s ∧
    .conflict 1 ∈ ls ∧ Isolation.Run .init ls A ∧ Isolation.Inv A := by
  have h : (@trace crc32 .init twoWriters).map (fun x => x.1.map fun l => match l with
      | .conflict i => i
      | _ => 0) = some [0, 0, 0, 0, 0, 0, 1, 0, 0] := by decide +kernel
  obtain ⟨⟨ls, s⟩, hs, hls⟩ := Option.map_eq_some_iff.mp h
  have htr : @Traced crc32 (@Isolable crc32) .init ls s := by
    exact @traced_of_trace crc32 .init .init s twoWriters [] ls (@Traced.refl crc32 _ _) hs
  have hmem : Label.conflict 1 ∈ ls := by
    obtain ⟨l, hl, h1⟩ := List.mem_map.mp (hls ▸ (by decide : 1 ∈ [0, 0, 0, 0, 0, 0, 1, 0, 0]))
    split at h1
    case h_1 => exact h1 ▸ hl
    case h_2 => cases h1
  obtain ⟨A, hr, -, hA⟩ := @snapshot_isolation crc32 s ls htr
  exact ⟨s, ls, A, htr, hmem, hr, hA⟩

def noLostUpdateOnce : Option (Sys × Sys × Sys × Process × Process × Reader × Commit × ℕ × Option Str) := do
  let s₀ ← @exec crc32 (@Settled crc32) _ .init
    (.open :: (setActs keyK textOne ++ [.transaction, .capture 0]))
  let s ← @step crc32 s₀ (.search 0 keyK)
  let t ← @exec crc32 (Alive (@Settled crc32)) _ s.1
    [.write 0 keyK (.set textTwo), .commit 0, .stamp, .append, .append, .put, .append, .record]
  let p ← s₀.proc
  let q ← t.proc
  let r ← p.reader 0
  match s, q.commit with
  | (s, .got (.ok v)), .recorded c ts =>
    if r.buffer.get keyK = none ∧ c.handle = some 0 ∧ keyK ∈ c.buffer.keys ∧
        @Settled crc32 s₀ (.search 0 keyK) then
      return (s₀, s, t, p, q, r, c, ts, v)
    else none
  | _, _ => none

/-- A transaction that replaces what it has read. -/
theorem no_lost_update_once : ∃ (t : Sys) (q : Process) (c : Commit) (ts : ℕ) (v : Option Str),
    t.proc = some q ∧ q.commit = .recorded c ts ∧ t.dir.valueAt keyK (ts - 1) = identify v := by
  have h : noLostUpdateOnce.isSome := by decide +kernel
  obtain ⟨⟨s₀, s, t, p, q, r, c, ts, v⟩, h⟩ := Option.isSome_iff_exists.mp h
  unfold noLostUpdateOnce at h
  simp only [bind, Option.bind_eq_some_iff] at h
  obtain ⟨_, hs₀, ⟨s', o⟩, hs, _, ht, _, hp, _, hq, _, hr, he⟩ := h
  split at he
  case h_2 => cases he
  case h_1 hso hc =>
    split_ifs at he with hif
    cases he
    cases hso
    obtain ⟨hb, hi, hk, hset⟩ := hif
    have hreach : @Reach crc32 (@Isolable crc32) s₀ :=
      @Run.mono crc32 _ _ _ _ (@reach_of_exec crc32 _ _ _ _ hs₀) fun _ _ h => @Settled.isolable crc32 _ _ h
    have hrun : @Run crc32 (Alive (@Isolable crc32)) s t :=
      @Run.mono crc32 _ _ _ _ (@run_of_exec crc32 _ _ _ _ _ _ (@Run.refl crc32 _ s) ht) fun _ _ h =>
        ⟨@Settled.isolable crc32 _ _ h.1, h.2⟩
    exact ⟨t, q, c, ts, v, hq, hc, @no_lost_update crc32 s t s₀ p q 0 ts r keyK _ c v hreach hp hr hb
      (.inl rfl) (@Settled.isolable crc32 _ _ hset) hs hrun hq hc hi hk⟩

end LowDB
