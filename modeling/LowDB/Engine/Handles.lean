import LowDB.Engine.Reads

/-! # Handles and lookups

Handles and calls of `DB::get` take their timestamp first and capture the memtables afterwards.  A
memtable written, frozen, flushed and retired in between is in neither what is captured nor, with its
older versions, on disk.  Where that does not happen (`Reader.Missed`), a handle reads the values
committed when it took its timestamp for as long as it lives (`handle_get`), and `DB::get` returns the
value committed when it was called (`get_linearizable`). -/

namespace LowDB

open Layered

/-- Actions in which an I/O operation fails. -/
def Act.fails : Act → Bool
  | appendFails _ _ | createLogFails | writeTableFails | removeLogFails => true
  | _ => false

/-- No I/O operation fails. -/
def NoFailure (_ : Sys) (a : Act) : Prop := a.fails = false

instance (s : Sys) (a : Act) : Decidable (NoFailure s a) := inferInstanceAs (Decidable (_ = _))

/-- The files that a process may be opened on: no append to them has failed or been refused, and the
index of every table has less than 2^32 bytes. -/
def Dir.Opens [Crc32] (d : Dir) : Prop := d.refused = false ∧ ∀ f ∈ d.ss, f.IndexFits

instance [Crc32] (d : Dir) : Decidable d.Opens := inferInstanceAs (Decidable (_ ∧ _))

def Act.isOpen : Act → Bool
  | «open» => true
  | _ => false

/-- No I/O operation fails, and only such files are opened. -/
def Calm [Crc32] (s : Sys) (a : Act) : Prop := a.fails = false ∧ (a.isOpen → s.dir.Opens)

instance [Crc32] (s : Sys) (a : Act) : Decidable (Calm s a) := inferInstanceAs (Decidable (_ ∧ _))

section calm
variable [Crc32] {s : Sys}

theorem Calm.tidy : Tidy Calm where
  opens _ h := (h.2 rfl).1
  commits _ _ _ _ h := nomatch h.1

theorem Run.consistent_calm (h : Reach Calm s) :
    s.Holds (fun d => d.refused = false → Files d) fun d p => ∃ rest, p.Consistent d rest := by
  have hc := h.consistent Calm.tidy fun _ _ ha => nomatch ha.1
  obtain ⟨d, p⟩ := s
  cases p with
  | none => exact hc
  | some p => exact ⟨[], hc⟩

theorem Run.serves_calm (h : Reach Calm s) :
    s.Holds (fun d => Functional d.histLayer) fun d p => p.Serves d :=
  h.serves (fun _ => Run.consistent_calm) fun _ ha => ha.2 rfl

/-- A lookup that has not missed the key returns the value committed at its timestamp. -/
theorem Run.got {d : Dir} {p : Process} {u : Sys} {i : ℕ} {r : Reader} {k : Str} {a : Act}
    {res : DbResult (Option Str)} (h : Reach Calm ⟨d, some p⟩) (hr : p.reader i = some r)
    (ha : a = .search i k ∧ r.buffer.get k = none ∨ a = .searchTables i k)
    (hu : step ⟨d, some p⟩ a = some (u, .got res)) (hm : ¬ r.Missed k) :
    ∃ v, res = .ok v ∧ identify v = d.valueAt k r.readTs := by
  have hsv : p.Serves d := h.serves_calm
  cases sysStep_of_eq hu with
  | step hs =>
      obtain ⟨v, o, hres, hv, _, hans⟩ := hsv.got hr ha hs
      refine ⟨v, hres, ?_⟩
      rw [hv, Dir.valueAt_of_answers hsv.hist (hans hm)]

/-- What a handle is to read stays the same for as long as it lives. -/
theorem Run.valueAt_alive {t : Sys} {p q : Process} {i : ℕ} {r r' : Reader} {k : Str}
    (hs : Reach Calm s) (hp : s.proc = some p) (hr : p.reader i = some r)
    (ht : Run (Alive Calm) s t) (hq : t.proc = some q) (hr' : q.reader i = some r') :
    r.Continues r' ∧ t.dir.valueAt k r'.readTs = s.dir.valueAt k r.readTs := by
  obtain ⟨q', hq', hl⟩ := Run.later hs (fun _ => Run.consistent_calm) hp ht
  cases hq.symm.trans hq'
  have hi := (List.getElem?_eq_some_iff.mp (Process.getElem?_of_reader hr)).1
  obtain ⟨r₀, hr₀, hc⟩ := hl.reader i r' hi hr'
  cases hr.symm.trans hr₀
  have hsv := hs.serves_calm
  have htv := (hs.trans (ht.mono fun _ _ h => h.1)).serves_calm
  obtain ⟨ds, ps⟩ := s
  obtain ⟨dt, pt⟩ := t
  cases hp
  cases hq
  refine ⟨hc, ?_⟩
  rw [hc.readTs]
  exact hl.valueAt_eq hsv.hist htv.hist (hsv.readTs_le hr)

end calm

/-- **Snapshot reads**: through a handle that has not missed `k`, a lookup at any later moment returns
what was committed at the handle's timestamp. -/
theorem handle_get [Crc32] {s t u : Sys} {p q : Process} {i : ℕ} {r r' : Reader} {k : Str}
    {a : Act} {res : DbResult (Option Str)} (hs : Reach Calm s) (hp : s.proc = some p)
    (hr : p.reader i = some r) (ht : Run (Alive Calm) s t) (hq : t.proc = some q)
    (hr' : q.reader i = some r') (hb : ∀ tx, r.kind = .transaction tx → r'.buffer.get k = none)
    (ha : a = .search i k ∨ a = .searchTables i k) (hu : step t a = some (u, .got res))
    (hm : ¬ r'.Missed k) : ∃ v, res = .ok v ∧ identify v = s.dir.valueAt k r.readTs := by
  obtain ⟨hc, hv⟩ := @Run.valueAt_alive _ _ _ _ _ _ _ _ k hs hp hr ht hq hr'
  have hreach := hs.trans (ht.mono fun _ _ h => h.1)
  obtain ⟨d, _⟩ := t
  cases hq
  have hbuf : r'.buffer.get k = none := by
    by_cases hk : ∃ tx, r.kind = .transaction tx
    · obtain ⟨tx, hk⟩ := hk
      exact hb tx hk
    · push Not at hk
      have hsv : q.Serves d := hreach.serves_calm
      rw [hsv.buffers i r' hr' (hc.kind ▸ hk)]
      rfl
  obtain ⟨v, hres, hval⟩ := Run.got hreach hr' (ha.imp_left fun h => ⟨h, hbuf⟩) hu hm
  exact ⟨v, hres, hval.trans hv⟩

/-- What may happen between the two steps that the reader 0 is created in, and its first lookup: the
memtable is flushed and the key then overwritten. -/
def delayed : List Act :=
  freezeActs ++ flushActs ++ setActs keyK textTwo ++ [.capture 0, .search 0 keyK]

/-- A snapshot whose memtable is flushed before it is captured, and which finds the version of its
time in the table. -/
def handleGetDelayed : Option (Sys × Sys × Sys × Process × Process × Reader × Reader × DbResult (Option Str)) := do
  let s ← @exec crc32 (@Calm crc32) _ .init (.open :: (setActs keyK textOne ++ [Act.snapshot]))
  let t ← @exec crc32 (Alive (@Calm crc32)) _ s delayed
  let p ← s.proc
  let r ← p.reader 0
  let q ← t.proc
  let r' ← q.reader 0
  match ← @step crc32 t (.searchTables 0 keyK), r.kind, r'.retired, decide (r'.Missed keyK) with
  | (u, .got res), .snapshot, _ :: _, false => return (s, t, u, p, q, r, r', res)
  | _, _, _, _ => none

theorem handle_get_delayed : ∃ (s t u : Sys) (p q : Process) (r r' : Reader) (res : _),
    s.proc = some p ∧ p.reader 0 = some r ∧ t.proc = some q ∧ q.reader 0 = some r' ∧
      r'.retired ≠ [] ∧ @step crc32 t (.searchTables 0 keyK) = some (u, .got res) ∧
      ∃ v, res = .ok v ∧ identify v = s.dir.valueAt keyK r.readTs := by
  have h : handleGetDelayed.isSome := by decide +kernel
  obtain ⟨⟨s, t, u, p, q, r, r', res⟩, h⟩ := Option.isSome_iff_exists.mp h
  unfold handleGetDelayed at h
  simp only [bind, Option.bind_eq_some_iff] at h
  obtain ⟨_, hs, _, ht, _, hp, _, hr, _, hq, _, hr', x, hu, he⟩ := h
  split at he
  case h_2 => cases he
  case h_1 hk hret hm =>
    cases he
    refine ⟨s, t, u, p, q, r, r', res, hp, hr, hq, hr', by simp [hret], hu, ?_⟩
    refine @handle_get crc32 s t u p q 0 r r' keyK _ res (@reach_of_exec crc32 _ _ _ _ hs) hp hr
      (@run_of_exec crc32 _ _ _ _ _ _ (@Run.refl crc32 _ s) ht) hq hr' (fun tx h => ?_) (.inr rfl) hu
      (of_decide_eq_false hm)
    cases hk.symm.trans h

/-- What happens between the two steps that the reader 0 is created in, and its first lookup. -/
def overrun : List Act :=
  setActs keyK textTwo ++ freezeActs ++ flushActs ++ [.capture 0, .search 0 keyK]

/-- A snapshot whose memtable is flushed before it is captured finds nothing. -/
def handleGetMissed : Option (Sys × Sys × Sys × Process × Process × Reader × Reader) := do
  let s ← @exec crc32 NoFailure _ .init (.open :: (setActs keyK textOne ++ [Act.snapshot]))
  let t ← @exec crc32 (Alive NoFailure) _ s overrun
  let p ← s.proc
  let r ← p.reader 0
  let q ← t.proc
  let r' ← q.reader 0
  match ← @step crc32 t (.searchTables 0 keyK), r.kind, s.dir.valueAt keyK r.readTs with
  | (u, .got (.ok none)), .snapshot, some _ => return (s, t, u, p, q, r, r')
  | _, _, _ => none

theorem handle_get_missed : ∃ (s t u : Sys) (p q : Process) (r r' : Reader) (res : _),
    @Reach crc32 NoFailure s ∧ s.proc = some p ∧ p.reader 0 = some r ∧ r.kind = .snapshot ∧
      @Run crc32 (Alive NoFailure) s t ∧ t.proc = some q ∧ q.reader 0 = some r' ∧
      @step crc32 t (.searchTables 0 keyK) = some (u, .got res) ∧
      ¬ ∃ v, res = .ok v ∧ identify v = s.dir.valueAt keyK r.readTs := by
  have h : handleGetMissed.isSome := by decide +kernel
  obtain ⟨⟨s, t, u, p, q, r, r'⟩, h⟩ := Option.isSome_iff_exists.mp h
  unfold handleGetMissed at h
  simp only [bind, Option.bind_eq_some_iff] at h
  obtain ⟨_, hs, _, ht, _, hp, _, hr, _, hq, _, hr', x, hu, he⟩ := h
  split at he
  case h_2 => cases he
  case h_1 hk hv =>
    cases he
    refine ⟨s, t, u, p, q, r, r', .ok none, @reach_of_exec crc32 _ _ _ _ hs, hp, hr, hk,
      @run_of_exec crc32 _ _ _ _ _ _ (@Run.refl crc32 _ s) ht, hq, hr', hu, ?_⟩
    rintro ⟨v, hres, hval⟩
    cases hres
    cases hval.trans hv

/-- **Linearizable lookups**: a call of `DB::get` that has not missed `k` returns the value committed
when it was called. -/
theorem get_linearizable [Crc32] {s₀ s t u : Sys} {p q : Process} {r : Reader} {k : Str} {a : Act}
    {res : DbResult (Option Str)} (hs₀ : Reach Calm s₀) (hp : s₀.proc = some p)
    (hcall : step s₀ (.get k) = some (s, .nothing)) (ht : Run (Alive Calm) s t)
    (hq : t.proc = some q) (hr : q.reader p.readers.length = some r)
    (ha : a = .search p.readers.length k ∨ a = .searchTables p.readers.length k)
    (hu : step t a = some (u, .got res)) (hm : ¬ r.Missed k) :
    ∃ v, res = .ok v ∧ identify v = s₀.dir.valueAt k p.oracle.visible := by
  have hcalm : Calm s₀ (.get k) := ⟨rfl, fun h => nomatch h⟩
  have hs : Reach Calm s := hs₀.tail hcalm hcall
  obtain ⟨d₀, _⟩ := s₀
  cases hp
  cases sysStep_of_eq hcall with
  | step hstep =>
      cases hstep with
      | get =>
          have hr₀ : Process.reader { p with
              readers := p.readers ++ [some (.started (.get k) p.oracle.visible)] }
              p.readers.length = some (.started (.get k) p.oracle.visible) := by
            unfold Process.reader
            rw [List.getElem?_concat_length]
            rfl
          obtain ⟨hc, hv⟩ := @Run.valueAt_alive _ _ _ _ _ _ _ _ k hs rfl hr₀ ht hq hr
          have hreach := hs.trans (ht.mono fun _ _ h => h.1)
          obtain ⟨d, _⟩ := t
          cases hq
          have hsv : q.Serves d := hreach.serves_calm
          have hk : ∀ tx, r.kind ≠ .transaction tx := by
            intro tx h
            cases hc.kind.symm.trans h
          have hbuf : r.buffer.get k = none := by
            rw [hsv.buffers _ r hr hk]
            rfl
          obtain ⟨v, hres, hval⟩ := Run.got hreach hr (ha.imp_left fun h => ⟨h, hbuf⟩) hu hm
          exact ⟨v, hres, hval.trans hv⟩

/-- A call of `DB::get` during which the memtable is flushed and the key then overwritten. -/
def getLinearizableDelayed : Option (Sys × (Sys × Out) × Sys × Sys × Process × Process × Reader × DbResult (Option Str)) := do
  let s₀ ← @exec crc32 (@Calm crc32) _ .init (.open :: setActs keyK textOne)
  let s ← @step crc32 s₀ (.get keyK)
  let t ← @exec crc32 (Alive (@Calm crc32)) _ s.1 delayed
  let p ← s₀.proc
  let q ← t.proc
  let r ← q.reader 0
  match ← @step crc32 t (.searchTables 0 keyK), s.2, p.readers, r.retired, decide (r.Missed keyK) with
  | (u, .got res), .nothing, [], _ :: _, false => return (s₀, s, t, u, p, q, r, res)
  | _, _, _, _, _ => none

theorem get_linearizable_delayed : ∃ (s₀ t u : Sys) (p q : Process) (r : Reader) (res : _),
    s₀.proc = some p ∧ t.proc = some q ∧ q.reader 0 = some r ∧ r.retired ≠ [] ∧
      @step crc32 t (.searchTables 0 keyK) = some (u, .got res) ∧
      ∃ v, res = .ok v ∧ identify v = s₀.dir.valueAt keyK p.oracle.visible := by
  have h : getLinearizableDelayed.isSome := by decide +kernel
  obtain ⟨⟨s₀, s, t, u, p, q, r, res⟩, h⟩ := Option.isSome_iff_exists.mp h
  unfold getLinearizableDelayed at h
  simp only [bind, Option.bind_eq_some_iff] at h
  obtain ⟨_, hs₀, ⟨s', o⟩, hs, _, ht, _, hp, _, hq, _, hr, x, hu, he⟩ := h
  split at he
  case h_2 => cases he
  case h_1 ho hn hret hm =>
    cases he
    cases ho
    refine ⟨s₀, t, u, p, q, r, res, hp, hq, hr, by simp [hret], hu, ?_⟩
    exact @get_linearizable crc32 s₀ s' t u p q r keyK _ res (@reach_of_exec crc32 _ _ _ _ hs₀) hp
      hs (@run_of_exec crc32 _ _ _ _ _ _ (@Run.refl crc32 _ s') ht) hq (hn ▸ hr) (.inr rfl)
      (hn ▸ hu) (of_decide_eq_false hm)

/-- A call of `DB::get` during which the key is overwritten and its memtable flushed. -/
def getLinearizableMissed : Option (Sys × (Sys × Out) × Sys × Sys × Process) := do
  let s₀ ← @exec crc32 NoFailure _ .init (.open :: setActs keyK textOne)
  let s ← @step crc32 s₀ (.get keyK)
  let t ← @exec crc32 (Alive NoFailure) _ s.1 overrun
  let p ← s₀.proc
  match ← @step crc32 t (.searchTables 0 keyK), s.2, p.readers,
    s₀.dir.valueAt keyK p.oracle.visible, t.dir.hist with
  | (u, .got (.ok none)), .nothing, [], some _, [(_, _, some _), (_, _, some _)] =>
    return (s₀, s, t, u, p)
  | _, _, _, _, _ => none

theorem get_linearizable_missed : ∃ (s₀ s t u : Sys) (p : Process) (res : _),
    @Reach crc32 NoFailure s₀ ∧ s₀.proc = some p ∧ p.readers = [] ∧
      @step crc32 s₀ (.get keyK) = some (s, .nothing) ∧ @Run crc32 (Alive NoFailure) s t ∧
      @step crc32 t (.searchTables 0 keyK) = some (u, .got res) ∧
      (∀ v x, res = .ok v → x ∈ t.dir.hist → identify v ≠ x.2.2) ∧
      s₀.dir.valueAt keyK p.oracle.visible ≠ none := by
  have h : getLinearizableMissed.isSome := by decide +kernel
  obtain ⟨⟨s₀, s, t, u, p⟩, h⟩ := Option.isSome_iff_exists.mp h
  unfold getLinearizableMissed at h
  simp only [bind, Option.bind_eq_some_iff] at h
  obtain ⟨_, hs₀, ⟨s', o⟩, hs, _, ht, _, hp, x, hu, he⟩ := h
  split at he
  case h_2 => cases he
  case h_1 ho hn hv hh =>
    cases he
    cases ho
    refine ⟨s₀, s', t, u, p, .ok none, @reach_of_exec crc32 _ _ _ _ hs₀, hp, hn, hs,
      @run_of_exec crc32 _ _ _ _ _ _ (@Run.refl crc32 _ s') ht, hu, ?_,
      hv ▸ Option.some_ne_none _⟩
    intro v y hres hy
    cases hres
    rw [hh] at hy
    simp only [List.mem_cons, List.not_mem_nil, or_false] at hy
    rcases hy with rfl | rfl
    · exact (Option.some_ne_none _).symm
    · exact (Option.some_ne_none _).symm

end LowDB
