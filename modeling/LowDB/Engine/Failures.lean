import LowDB.Engine.Handles

/-! # Failures

What two kinds of failed operations do to later lookups.

A log whose removal has failed is replayed on the next opening and searched before all tables.  This
is harmless as long as no newer log is removed that has a key of it which no log still newer has
(`RemoveOk`); then `DB::get` always returns the newest committed value (`redundant_logs`).  Otherwise
an older version comes back (`redundant_logs_resurface`).

A commit that fails before its batch is put leaves no version anywhere (`failed_commit`).  A commit
whose last append fails leaves its entries in the active memtable, and the next commit publishes them
(`failed_commit_shows`); one whose new log cannot be created is published when it fails. -/

namespace LowDB

open Layered

/-! ### Current values -/

/-- `DB::get` returns the newest committed value, the commit under way not counted. -/
structure Process.Current [Crc32] (d : Dir) (p : Process) : Prop where
  get : ∀ k, ∃ v, p.dbGet k = .ok v ∧ identify v = d.valueAt k p.oracle.visible
  newest : ∀ x ∈ d.hist, x.2.1 ≤ p.oracle.visible ∨ p.commit.openTs = some x.2.1

/-- `DB::open` succeeds. -/
def Dir.OpensOk [Crc32] (d : Dir) : Prop :=
  ∃ p, openSys d = (⟨d.addLog p.state.memTable, some p⟩, .opened (.ok ()))

/-- A commit record is that of the commit under way until the commit is published. -/
theorem Phase.newest {hist : List Version} {visible : ℕ} {es : List Entry} {c : CommitLock}
    (h : Phase hist visible es c) {x : Version} (hx : x ∈ hist) :
    x.2.1 ≤ visible ∨ c.openTs = some x.2.1 := by
  obtain ⟨k, n, v⟩ := x
  apply or_iff_not_imp_left.mpr
  intro hlt
  have hv := (h.hist k n v (Nat.lt_of_not_le hlt)).mp hx
  have hts := h.ts
  cases c with
  | «sealed» c ts => exact congrArg some (Buffer.time_of_layer_batch (hts ts rfl) hv).symm
  | recorded c ts => exact congrArg some (Buffer.time_of_layer_batch (hts ts rfl) hv).symm
  | _ => exact absurd hv (by simp [CommitLock.sealedEntries])

section current
variable [Crc32] {d : Dir} {p : Process} {rest : List ℕ}

theorem Process.Serves.current (h : p.Serves d) (hc : p.Consistent d rest) : p.Current d where
  get := h.dbGet_eq hc
  newest _ hx := hc.phase.newest hx

/-- Files that hold `Files` can be opened if the indexes of the tables fit. -/
theorem Files.opensOk (hF : Files d) (hfit : ∀ f ∈ d.ss, f.IndexFits) : d.OpensOk := by
  obtain ⟨m, hr⟩ := restore_eq hF.sorted hF.intact
  obtain ⟨ds, hl, -⟩ := load_exact fun f hf => ⟨hF.stored f hf, hfit f hf⟩
  obtain ⟨p, hp⟩ : ∃ p, Process.openDb (d.wal.map Log.file) d.ss = .ok p := by
    unfold Process.openDb
    rw [hr, hl]
    exact ⟨_, rfl⟩
  refine ⟨p, ?_⟩
  unfold openSys
  rw [hp]

/-- In a run that keeps the invariants and opens only files fit for it, opening succeeds and lookups
are current. -/
theorem Run.current_of_consistent {P : Sys → Act → Prop} {s : Sys}
    (hcons : ∀ s, Reach P s →
      s.Holds (fun d => d.refused = false → Files d) fun d p => ∃ rest, p.Consistent d rest)
    (hopen : ∀ d, P ⟨d, none⟩ .open → d.Opens) (h : Reach P s) :
    s.Holds (fun d => d.Opens → d.OpensOk) fun d p => p.Current d := by
  have hc := hcons s h
  have hsv := h.serves hcons hopen
  obtain ⟨d, p⟩ := s
  cases p with
  | none => exact fun hd => (hc hd.1).opensOk hd.2
  | some p =>
      obtain ⟨rest, hc⟩ := hc
      exact hsv.current hc

end current

/-! ### Logs left over -/

def Act.isRemoveLogFails : Act → Bool
  | removeLogFails => true
  | _ => false

def Act.isRemoveLog : Act → Bool
  | removeLog => true
  | _ => false

/-- Only the removal of logs fails, and only files fit for it are opened. -/
def Removals [Crc32] (s : Sys) (a : Act) : Prop :=
  (a.fails → a.isRemoveLogFails) ∧ (a.isOpen → s.dir.Opens)

instance [Crc32] (s : Sys) (a : Act) : Decidable (Removals s a) :=
  inferInstanceAs (Decidable (_ ∧ _))

/-- The log about to be removed hides nothing. -/
def Sys.RemovesOk (s : Sys) : Prop :=
  match s.proc.map Process.flush with
  | some (.retired mt) => RemoveOk s.dir mt
  | _ => True

instance (s : Sys) : Decidable s.RemovesOk := by
  unfold Sys.RemovesOk
  split <;> infer_instance

/-- And a log is removed only where the logs left over do not hide what it has. -/
def Harmless [Crc32] (s : Sys) (a : Act) : Prop := Removals s a ∧ (a.isRemoveLog → s.RemovesOk)

instance [Crc32] (s : Sys) (a : Act) : Decidable (Harmless s a) :=
  inferInstanceAs (Decidable (_ ∧ _))

theorem Harmless.tidy [Crc32] : Tidy Harmless where
  opens _ h := (h.1.2 rfl).1
  commits _ _ _ _ h := absurd (h.1.1 rfl) Bool.false_ne_true

/-- **Redundant logs**: where only the removal of logs fails, and none is removed that an older one
left over would replace, opening succeeds and `DB::get` returns the newest committed value in every
state. -/
theorem redundant_logs [Crc32] {s : Sys} (h : Reach Harmless s) :
    s.Holds (fun d => d.Opens → d.OpensOk) fun d p => p.Current d := by
  refine h.current_of_consistent (fun s hs => ?_) fun d ha => ha.1.2 rfl
  apply hs.consistent_of_removeOk Harmless.tidy
  intro d p mt ha hf
  have hok := ha.2 rfl
  unfold Sys.RemovesOk at hok
  rw [Option.map_some, hf] at hok
  exact hok

/-- The removal of a log fails, and the process ends. -/
def leftOver : List Act :=
  setActs keyK textOne ++ freezeActs ++ [.pick, .writeTable, .install, .retire, .removeLogFails]

def redundantLogsOnce : Option (Sys × Process) := do
  let s ← @exec crc32 (@Harmless crc32) _ .init (Act.open :: (leftOver ++ [Act.crash, .open]))
  let p ← s.proc
  match p.state.frozen.length, p.storage.tables.length with
  | 2, 1 => return (s, p)
  | _, _ => none

theorem redundant_logs_once : ∃ (s : Sys) (p : Process), s.proc = some p ∧
    (p.state.frozen.length = 2 ∧ p.storage.tables.length = 1) ∧ @Process.Current crc32 s.dir p := by
  have h : redundantLogsOnce.isSome := by decide +kernel
  obtain ⟨⟨s, p⟩, h⟩ := Option.isSome_iff_exists.mp h
  unfold redundantLogsOnce at h
  simp only [bind, Option.bind_eq_some_iff] at h
  obtain ⟨_, hs, _, hp, he⟩ := h
  split at he
  case h_2 => cases he
  case h_1 hf ht =>
    cases he
    have hcur := @redundant_logs crc32 s (@reach_of_exec crc32 _ _ _ _ hs)
    obtain ⟨d, _⟩ := s
    cases hp
    exact ⟨⟨d, some p⟩, p, rfl, ⟨hf, ht⟩, hcur⟩

/-- The key is overwritten and flushed, but the log with its old version is still there: after the next
opening the old version is read. -/
def redundantLogsResurface : Option (Sys × Process × Str) := do
  let s ← @exec crc32 (@Removals crc32) _ .init (Act.open :: (leftOver ++
    setActs keyK textTwo ++ freezeActs ++ flushActs ++ [Act.crash, .open]))
  let p ← s.proc
  match @Process.dbGet crc32 p keyK, decide (s.dir.valueAt keyK p.oracle.visible = some textTwo)
  with
  | .ok (some v), true => if v = textOne then return (s, p, v) else none
  | _, _ => none

theorem redundant_logs_resurface : ∃ (s : Sys) (p : Process),
    @Reach crc32 (@Removals crc32) s ∧ s.proc = some p ∧
      @Process.dbGet crc32 p keyK = .ok (some textOne) ∧
      s.dir.valueAt keyK p.oracle.visible = some textTwo ∧ ¬ @Process.Current crc32 s.dir p := by
  have h : redundantLogsResurface.isSome := by decide +kernel
  obtain ⟨⟨s, p, v⟩, h⟩ := Option.isSome_iff_exists.mp h
  unfold redundantLogsResurface at h
  simp only [bind, Option.bind_eq_some_iff] at h
  obtain ⟨_, hs, _, hp, he⟩ := h
  split at he
  case h_2 => cases he
  case h_1 hget hval =>
    split_ifs at he with hv
    cases he
    subst hv
    have hval := of_decide_eq_true hval
    refine ⟨s, p, @reach_of_exec crc32 _ _ _ _ hs, hp, hget, hval, ?_⟩
    intro hc
    obtain ⟨w, hw, hid⟩ := @Process.Current.get crc32 _ _ hc keyK
    cases hget.symm.trans hw
    rw [hval] at hid
    exact absurd hid (by decide)

/-! ### Failed commits -/

namespace CommitLock

/-- `Oracle::freeze` is under way, not a commit. -/
def isFreezing : CommitLock → Bool
  | freezing => true
  | _ => false

/-- What may fail without a trace: an append before the batch is put, and the creation of a log that no
commit waits for. -/
def mayFail (c : CommitLock) : Act → Bool
  | .appendFails _ _ => !c.isLogged
  | .createLogFails => c.isFreezing
  | .writeTableFails | .removeLogFails => false
  | _ => true

end CommitLock

/-- Only such operations fail, and only files fit for it are opened. -/
def Contained [Crc32] (s : Sys) (a : Act) : Prop :=
  (s.proc.all fun p => p.commit.mayFail a) ∧ (a.isOpen → s.dir.Opens)

instance [Crc32] (s : Sys) (a : Act) : Decidable (Contained s a) :=
  inferInstanceAs (Decidable (_ ∧ _))

theorem Contained.tidy [Crc32] : Tidy Contained where
  opens _ h := (h.2 rfl).1
  commits d p w b h := by simpa [CommitLock.mayFail] using h.1

theorem Run.consistent_contained [Crc32] {s : Sys} (h : Reach Contained s) :
    s.Holds (fun d => d.refused = false → Files d) fun d p => p.Consistent d [] :=
  h.consistent Contained.tidy fun _ _ ha => absurd ha.1 Bool.false_ne_true

namespace Process

variable {d d' : Dir} {p p' : Process} {a : Act} {o : Out} {rest : List ℕ}

/-- The timestamps of failed commits are used up, and no commit record has one. -/
structure NoTrace (d : Dir) (p : Process) : Prop where
  lt : ∀ ts ∈ p.failed, ts < p.oracle.nextSeq
  openTs : ∀ ts ∈ p.failed, p.commit.openTs ≠ some ts
  hist : ∀ ts ∈ p.failed, ∀ x ∈ d.hist, x.2.1 ≠ ts

namespace NoTrace

/-- Steps of a commit that does not fail and seals nothing. -/
theorem lock (h : p.NoTrace d) (hf : p'.failed = p.failed)
    (ho : p'.oracle.nextSeq = p.oracle.nextSeq)
    (hc : ∀ ts, p'.commit.openTs = some ts → p.commit.openTs = some ts)
    (hd : d'.hist = d.hist) : p'.NoTrace d' where
  lt := by
    rw [hf, ho]
    exact h.lt
  openTs := by
    rw [hf]
    exact fun ts hts ht => h.openTs ts hts (hc ts ht)
  hist := by
    rw [hf, hd]
    exact h.hist

/-- A commit fails before it has sealed anything. -/
theorem fail {ts : ℕ} (h : p.NoTrace d) (hco : p.Conflicts) (hph : p.Phase d)
    (hts : p.commit.openTs = some ts) (hs : p.commit.sealedEntries = [])
    (hf : p'.failed = ts :: p.failed) (ho : p'.oracle = p.oracle) (hc : p'.commit.openTs = none)
    (hd : d'.hist = d.hist) : p'.NoTrace d' := by
  obtain ⟨hlt, hnext⟩ := hco.openTs ts hts
  refine ⟨?_, ?_, ?_⟩
  · rw [hf, ho]
    exact List.forall_mem_cons.mpr ⟨hnext, h.lt⟩
  · intro t _ ht
    rw [hc] at ht
    cases ht
  · rw [hf, hd]
    refine List.forall_mem_cons.mpr ⟨fun x hx he => ?_, h.hist⟩
    exact hlt.not_ge (he ▸ hph.hist_le hs hx)

variable [Crc32]

theorem step (h : p.NoTrace d) (hc : p.Consistent d rest) (ha : p.commit.mayFail a)
    (hs : Step d p a o d' p') : p'.NoTrace d' := by
  have hopen : ∀ {c}, p.commit = c → c.openTs = p'.commit.openTs → ∀ ts,
      p'.commit.openTs = some ts → p.commit.openTs = some ts := by
    intro c hc ho ts hts
    rw [hc, ho, hts]
  cases hs with
  | set => exact h.lock rfl rfl (fun _ h => nomatch h) rfl
  | commit => exact h.lock rfl rfl (fun _ h => nomatch h) rfl
  | stamp =>
      refine ⟨fun ts hts => (h.lt ts hts).trans (Nat.lt_succ_self _), fun ts hts he => ?_, h.hist⟩
      exact (h.lt ts hts).ne (Option.some_inj.mp he).symm
  | appendBegin hl => exact h.lock rfl rfl (hopen hl rfl) rfl
  | appendBatch hl => exact h.lock rfl rfl (hopen hl rfl) rfl
  | refuse hl => exact h.fail hc.conflicts hc.phase (by rw [hl]; rfl) (by rw [hl]; rfl) rfl rfl rfl rfl
  | @appendCommit c ts hl =>
      have hph := hc.phase
      unfold Phase at hph
      rw [hl] at hph
      refine ⟨h.lt, fun t ht he => h.openTs t ht (by rw [hl]; exact he), ?_⟩
      intro t ht x hx
      cases List.mem_append.mp hx with
      | inl hx => exact h.hist t ht x hx
      | inr hx =>
          obtain ⟨e, he, rfl⟩ := List.mem_map.mp hx
          rintro rfl
          apply h.openTs _ ht
          rw [hl]
          exact congrArg some (Buffer.seq_of_mem_batch (hph.ts ts rfl) he).symm
  | @appendFails ts w b ht =>
      have hl : p.commit.isLogged = false := by simpa [CommitLock.mayFail] using ha
      unfold appendTs at ht
      split at ht
      case h_1 hc' =>
        exact h.fail hc.conflicts hc.phase (by rw [hc']; exact ht) (by rw [hc']; rfl) rfl rfl rfl rfl
      case h_2 hc' =>
        exact h.fail hc.conflicts hc.phase (by rw [hc']; exact ht) (by rw [hc']; rfl) rfl rfl rfl rfl
      case h_3 hc' =>
        rw [hc'] at hl
        cases hl
      case h_4 => cases ht
  | put hl => exact h.lock rfl rfl (hopen hl rfl) rfl
  | record hl => exact h.lock rfl rfl (hopen hl rfl) rfl
  | publish => exact h.lock rfl rfl (fun _ h => nomatch h) rfl
  | watermark => exact h.lock rfl rfl (fun _ h => nomatch h) rfl
  | prune => exact h.lock rfl rfl (fun _ h => nomatch h) rfl
  | finish => exact h.lock rfl rfl (fun _ h => nomatch h) rfl
  | freeze => exact h.lock rfl rfl (fun _ h => nomatch h) rfl
  | createLog => exact h.lock rfl rfl (fun _ h => nomatch h) rfl
  | createLogFails hl =>
      rw [hl] at ha
      cases ha
  | freezeFails => exact h.lock rfl rfl (fun _ h => nomatch h) rfl
  | swap => exact h.lock rfl rfl (fun _ h => nomatch h) rfl
  | _ => exact h.lock rfl rfl (fun _ h => h) rfl

end NoTrace

end Process

section contained
variable [Crc32] {s : Sys}

theorem Run.noTrace (h : Reach Contained s) :
    s.Holds (fun _ => True) fun d p => p.NoTrace d := by
  refine h.holds (fun d p hr ha _ ho => ?_) (fun _ _ _ => trivial)
    (fun d p a o d' p' hr ha hp hs => ?_) trivial
  · have hop := Process.opened (hr.consistent_contained (ha.2 rfl).1) ho
    have hf : ∀ ts, ts ∉ p.failed := by simp [hop.failed]
    exact ⟨fun ts h => absurd h (hf ts), fun ts h => absurd h (hf ts),
      fun ts h => absurd h (hf ts)⟩
  · exact hp.step hr.consistent_contained ha.1 hs

theorem Run.serves_contained (h : Reach Contained s) :
    s.Holds (fun d => Functional d.histLayer) fun d p => p.Serves d := by
  refine h.serves (fun s hs => ?_) fun d ha => ha.2 rfl
  have hc := hs.consistent_contained
  obtain ⟨d, p⟩ := s
  cases p with
  | none => exact hc
  | some p => exact ⟨[], hc⟩

end contained

/-- **Failed commits**: where commits fail only before their batch is put, a failed one has left no
version: `DB::get` returns the newest committed value, and every lookup of a handle a committed version
or none, which is the one committed at its timestamp unless the handle has missed the key. -/
theorem failed_commit [Crc32] {s : Sys} {p : Process} (h : Reach Contained s)
    (hp : s.proc = some p) :
    (∀ ts ∈ p.failed, ∀ x ∈ s.dir.hist, x.2.1 ≠ ts) ∧ p.Current s.dir ∧
      ∀ i r k a u res, p.reader i = some r →
        (a = .search i k ∧ r.buffer.get k = none ∨ a = .searchTables i k) →
        step s a = some (u, .got res) →
        ∃ v, res = .ok v ∧
          (identify v = none ∨ ∃ n ∉ p.failed, (k, n, identify v) ∈ s.dir.hist) ∧
          (¬ r.Missed k → identify v = s.dir.valueAt k r.readTs) := by
  have hnt := h.noTrace
  have hsv := h.serves_contained
  have hc := h.consistent_contained
  obtain ⟨d, _⟩ := s
  cases hp
  have hnt : p.NoTrace d := hnt
  have hsv : p.Serves d := hsv
  refine ⟨hnt.hist, hsv.current hc, ?_⟩
  intro i r k a u res hr ha hu
  cases sysStep_of_eq hu with
  | step hs =>
      obtain ⟨v, o, hres, hv, hmem, hans⟩ := hsv.got hr ha hs
      refine ⟨v, hres, ?_, ?_⟩
      · cases o with
        | none => exact .inl hv
        | some x =>
            obtain ⟨n, w⟩ := x
            have hx : (k, n, w) ∈ d.hist := hmem _ rfl
            exact .inr ⟨n, fun hn => hnt.hist n hn _ hx rfl, hv ▸ hx⟩
      · intro hm
        rw [hv, Dir.valueAt_of_answers hsv.hist (hans hm)]

/-- `DB::set`, up to the last append, which fails. -/
def failedSet : List Act :=
  [.set keyK textOne, .stamp, .append, .append, .put, .appendFails [] []]

/-- The first append of a `DB::set` fails; the next call succeeds. -/
def failedCommitOnce : Option (Sys × Process) := do
  let s ← @exec crc32 (@Contained crc32) _ .init
    ([Act.open, .set keyK textOne, .stamp, .appendFails [] []] ++ setActs keyK textTwo)
  let p ← s.proc
  if p.failed = [2] then return (s, p) else none

theorem failed_commit_once : ∃ (s : Sys) (p : Process), s.proc = some p ∧ p.failed = [2] ∧
    (∀ ts ∈ p.failed, ∀ x ∈ s.dir.hist, x.2.1 ≠ ts) ∧ @Process.Current crc32 s.dir p := by
  have h : failedCommitOnce.isSome := by decide +kernel
  obtain ⟨⟨s, p⟩, h⟩ := Option.isSome_iff_exists.mp h
  unfold failedCommitOnce at h
  simp only [bind, Option.bind_eq_some_iff] at h
  obtain ⟨_, hs, _, hp, he⟩ := h
  split_ifs at he with hf
  cases he
  have hfail := @failed_commit crc32 s p (@reach_of_exec crc32 _ _ _ _ hs) hp
  exact ⟨s, p, hp, hf, hfail.1, hfail.2.1⟩

/-- Actions of which only appends fail. -/
def Appends (_ : Sys) (a : Act) : Prop :=
  match a with
  | .appendFails _ _ => True
  | a => a.fails = false

instance (s : Sys) (a : Act) : Decidable (Appends s a) := by
  unfold Appends
  split <;> infer_instance

/-- The append of its commit record fails, and `DB::set` returns an error; then another key is set, and
the first one is read. -/
def failedCommitShows : Option (Sys × Process × Str) := do
  let s ← @exec crc32 Appends _ .init (.open :: (failedSet ++ setActs textOne textTwo))
  let p ← s.proc
  match @Process.dbGet crc32 p keyK with
  | .ok (some v) =>
    if p.failed = [2] ∧ v = textOne ∧ ∀ x ∈ s.dir.hist, x.1 ≠ keyK then return (s, p, v) else none
  | _ => none

theorem failed_commit_shows : ∃ (s : Sys) (p : Process), @Reach crc32 Appends s ∧
    s.proc = some p ∧ p.failed = [2] ∧ @Process.dbGet crc32 p keyK = .ok (some textOne) ∧
      ∀ x ∈ s.dir.hist, x.1 ≠ keyK := by
  have h : failedCommitShows.isSome := by decide +kernel
  obtain ⟨⟨s, p, v⟩, h⟩ := Option.isSome_iff_exists.mp h
  unfold failedCommitShows at h
  simp only [bind, Option.bind_eq_some_iff] at h
  obtain ⟨_, hs, _, hp, he⟩ := h
  split at he
  case h_2 => cases he
  case h_1 hget =>
    split_ifs at he with hall
    cases he
    obtain ⟨hf, rfl, hh⟩ := hall
    exact ⟨s, p, @reach_of_exec crc32 _ _ _ _ hs, hp, hf, hget, hh⟩

end LowDB
