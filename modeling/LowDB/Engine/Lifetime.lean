import Mathlib.Logic.Relation
import LowDB.Engine.Reads

/-! # The handles of an opened database and its flush loop

`engine/src/lib.rs` (`DB`, `DB::close`, `Drop for DB`), `storage/src/lib.rs`
(`await_flush_capacity`, `begin_shutdown`, `flush_loop`).

All handles share one process, one flush loop and one shutdown flag.  Actions of the engine carry over
what else they do: they notify the flush loop, and a commit that has returned its locks goes on to wait
for room.  Every stretch of `flush_loop` between two of its `await`s is one event, as is every look of a
waiting commit at the number of frozen memtables.  Dropping any handle sets the flag, so that the loop
ends while other handles live (`flusher_exits`); it does not where the handle dropped is the last one
(`flusher_lives`). -/

namespace LowDB

/-! ### The flush loop -/

/-- `MAX_FROZEN`. -/
def maxFrozen : ℕ := 4

/-- Where `flush_loop` is: before `inner.upgrade()`, in `flush_oldest` and after it, in `tokio::select!`,
in `tokio::time::sleep(retry)`, or at its end. -/
inductive FlushLoop where
  | top
  | flushing
  | flushed (r : DbResult Bool)
  | waiting
  | asleep
  | exited

namespace FlushLoop

/-- From `flush_oldest` to the next `await`. -/
def check (shutdown : Bool) : DbResult Bool → FlushLoop
  | .ok true => top
  | .ok false => if shutdown then exited else waiting
  | .error _ => if shutdown then exited else asleep

/-- `notify_waiters`, which leaves no permit for later. -/
def woken : FlushLoop → FlushLoop
  | waiting => top
  | l => l

theorem check_ne_exited (r : DbResult Bool) : check false r ≠ exited := by
  unfold check
  split <;> simp

theorem woken_eq_exited {l : FlushLoop} : l.woken = exited ↔ l = exited := by
  cases l <;> simp [woken]

end FlushLoop

namespace Act

/-- A call on a handle begins with it. -/
def startsCall : Act → Bool
  | set _ _ | freeze | snapshot | transaction | get _ => true
  | _ => false

def flushes : Act → Bool
  | pick | writeTable | writeTableFails | install | retire | removeLog | removeLogFails => true
  | _ => false

def takesFlushLock : Act → Bool
  | pick => true
  | _ => false

/-- `self.flush_notify.notify_one()` in `force_freeze`. -/
def notifiesOne : Act → Bool
  | swap => true
  | _ => false

/-- `self.flush_notify.notify_waiters()` in `flush_oldest`. -/
def notifiesWaiters : Act → Bool
  | removeLog => true
  | _ => false

/-- `Oracle::commit` goes on to `await_flush_capacity`. -/
def awaits : Act → Out → Bool
  | finish, .committed (.ok ()) | swap, .committed (.ok ()) => true
  | _, _ => false

end Act

/-! ### Handles -/

def Reader.ownsStorage (r : Reader) : Bool :=
  match r.kind with
  | .transaction _ => true
  | _ => false

/-- An opened database; a `Notify` has a permit or none. -/
structure DB where
  dir : Dir
  proc : Process
  /-- by handle; false once dropped -/
  handles : List Bool
  /-- calls of `close` that have yet to set the flag -/
  closing : ℕ
  shutdown : Bool
  shutdownNotify : Bool
  flushNotify : Bool
  flusher : FlushLoop
  /-- the loop holds the flush lock -/
  flusherLocks : Bool
  /-- commits in `await_flush_capacity` -/
  waiters : ℕ
  /-- ghost: `close` has been called -/
  closed : Bool

namespace DB

inductive Event where
  | clone (handle : ℕ)
  | drop (handle : ℕ)
  | close (handle : ℕ)
  /-- the flush of a call of `close` has returned -/
  | closes
  /-- first action of a call on the handle -/
  | call (handle : ℕ) (a : Act)
  /-- any other action of a call or of a transaction, or of the flush in a call of `close` -/
  | task (a : Act)
  /-- a commit in `await_flush_capacity` looks -/
  | await
  | upgrade
  /-- the loop's own action of `flush_oldest` -/
  | flush (a : Act)
  | flushNothing
  | check
  | flushNotified
  | shutdownNotified
  | retry

/-- `DB::open`, which spawns the flush loop and notifies it. -/
def opened [Crc32] (d : Dir) : Option DB :=
  match openSys d with
  | (⟨d, some p⟩, _) =>
    some
      { dir := d, proc := p, handles := [true], closing := 0, shutdown := false
        shutdownNotify := false, flushNotify := true, flusher := .top, flusherLocks := false
        waiters := 0, closed := false }
  | _ => none

variable (s : DB)

def sys : Sys := ⟨s.dir, some s.proc⟩

def alive (i : ℕ) : Bool := s.handles[i]? = some true

/-- The storage has an owner besides the loop: a handle, a transaction or a commit that waits. -/
def owned : Bool :=
  s.handles.contains true || 0 < s.waiters || s.proc.readers.any fun r => r.any Reader.ownsStorage

def beginShutdown : DB := { s with shutdown := true, shutdownNotify := true }

/-- The action `a` of the engine has returned `o`. -/
def acted (d : Dir) (p : Process) (a : Act) (o : Out) : DB :=
  { s with
    dir := d
    proc := p
    flushNotify := s.flushNotify || a.notifiesOne
    flusher := if a.notifiesWaiters then s.flusher.woken else s.flusher
    waiters := if a.awaits o then s.waiters + 1 else s.waiters }

def flusherActed (d : Dir) (p : Process) (a : Act) : Out → DB
  | .flushed r => { s.acted d p a (.flushed r) with flusher := .flushed r, flusherLocks := false }
  | o => { s.acted d p a o with flusherLocks := true }

/-- One event; none where it is not possible. -/
def step [Crc32] : Event → Option DB
  | .clone i => if s.alive i then some { s with handles := s.handles ++ [true] } else none
  | .drop i =>
    if s.alive i then some { s with handles := s.handles.set i false }.beginShutdown else none
  | .close i =>
    if s.alive i then some { s with closing := s.closing + 1, closed := true } else none
  | .closes =>
    if 0 < s.closing then some { s with closing := s.closing - 1 }.beginShutdown else none
  | .call i a =>
    if s.alive i ∧ a.startsCall then
      (s.proc.step s.dir a).map fun (d, p, o) => s.acted d p a o
    else none
  | .task a =>
    -- the flush lock is the loop's
    if a.startsCall ∨ (a.flushes ∧ s.flusherLocks) then none
    else (s.proc.step s.dir a).map fun (d, p, o) => s.acted d p a o
  | .await =>
    if 0 < s.waiters then
      if s.proc.state.frozen.length ≤ maxFrozen then some { s with waiters := s.waiters - 1 }
      else some { s with flushNotify := true }
    else none
  | .upgrade =>
    match s.flusher with
    | .top => some { s with flusher := if s.owned then .flushing else .exited }
    | _ => none
  | .flush a =>
    match s.flusher with
    | .flushing =>
      if a.flushes ∧ (a.takesFlushLock ∨ s.flusherLocks) then
        (s.proc.step s.dir a).map fun (d, p, o) => s.flusherActed d p a o
      else none
    | _ => none
  | .flushNothing =>
    match s.flusher, s.proc.flush, s.proc.state.frozen with
    | .flushing, .free, [] => some { s with flusher := .flushed (.ok false) }
    | _, _, _ => none
  | .check =>
    match s.flusher with
    | .flushed r => some { s with flusher := .check s.shutdown r }
    | _ => none
  | .flushNotified =>
    match s.flusher, s.flushNotify with
    | .waiting, true => some { s with flusher := .top, flushNotify := false }
    | _, _ => none
  | .shutdownNotified =>
    match s.flusher, s.shutdownNotify with
    | .waiting, true => some { s with flusher := .top, shutdownNotify := false }
    | _, _ => none
  | .retry =>
    match s.flusher with
    | .asleep => some { s with flusher := .top }
    | _ => none

/-! ### What an event can do -/

inductive Transition [Crc32] (s : DB) : Event → DB → Prop
  | clone {i : ℕ} (hi : s.alive i) : Transition s (.clone i) { s with handles := s.handles ++ [true] }
  | drop {i : ℕ} (hi : s.alive i) :
      Transition s (.drop i) { s with handles := s.handles.set i false }.beginShutdown
  | close {i : ℕ} (hi : s.alive i) :
      Transition s (.close i) { s with closing := s.closing + 1, closed := true }
  | closes (hc : 0 < s.closing) :
      Transition s .closes { s with closing := s.closing - 1 }.beginShutdown
  | call {i : ℕ} {a : Act} {o : Out} {d : Dir} {p : Process} (hi : s.alive i) (ha : a.startsCall)
      (h : s.proc.step s.dir a = some (d, p, o)) : Transition s (.call i a) (s.acted d p a o)
  | task {a : Act} {o : Out} {d : Dir} {p : Process} (ha : a.startsCall = false)
      (hf : ¬ (a.flushes ∧ s.flusherLocks)) (h : s.proc.step s.dir a = some (d, p, o)) :
      Transition s (.task a) (s.acted d p a o)
  | leaves (hw : 0 < s.waiters) (hf : s.proc.state.frozen.length ≤ maxFrozen) :
      Transition s .await { s with waiters := s.waiters - 1 }
  | waits (hw : 0 < s.waiters) (hf : maxFrozen < s.proc.state.frozen.length) :
      Transition s .await { s with flushNotify := true }
  | upgrade (hl : s.flusher = .top) :
      Transition s .upgrade { s with flusher := if s.owned then .flushing else .exited }
  | flush {a : Act} {o : Out} {d : Dir} {p : Process} (hl : s.flusher = .flushing) (ha : a.flushes)
      (hk : a.takesFlushLock ∨ s.flusherLocks) (h : s.proc.step s.dir a = some (d, p, o)) :
      Transition s (.flush a) (s.flusherActed d p a o)
  | flushNothing (hl : s.flusher = .flushing) (hf : s.proc.flush = .free)
      (he : s.proc.state.frozen = []) :
      Transition s .flushNothing { s with flusher := .flushed (.ok false) }
  | check {r : DbResult Bool} (hl : s.flusher = .flushed r) :
      Transition s .check { s with flusher := .check s.shutdown r }
  | flushNotified (hl : s.flusher = .waiting) (hn : s.flushNotify = true) :
      Transition s .flushNotified { s with flusher := .top, flushNotify := false }
  | shutdownNotified (hl : s.flusher = .waiting) (hn : s.shutdownNotify = true) :
      Transition s .shutdownNotified { s with flusher := .top, shutdownNotify := false }
  | retry (hl : s.flusher = .asleep) : Transition s .retry { s with flusher := .top }

section steps
variable [Crc32] {s t : DB} {e : Event}

theorem transition_of_eq (h : s.step e = some t) : Transition s e t := by
  cases e with
  | clone i =>
      obtain ⟨hi, he⟩ := Option.ite_none_right_eq_some.mp h
      cases he
      exact .clone hi
  | drop i =>
      obtain ⟨hi, he⟩ := Option.ite_none_right_eq_some.mp h
      cases he
      exact .drop hi
  | close i =>
      obtain ⟨hi, he⟩ := Option.ite_none_right_eq_some.mp h
      cases he
      exact .close hi
  | closes =>
      obtain ⟨hc, he⟩ := Option.ite_none_right_eq_some.mp h
      cases he
      exact .closes hc
  | call i a =>
      obtain ⟨⟨hi, ha⟩, he⟩ := Option.ite_none_right_eq_some.mp h
      obtain ⟨⟨d, p, o⟩, hst, rfl⟩ := Option.map_eq_some_iff.mp he
      exact .call hi ha hst
  | task a =>
      obtain ⟨hn, he⟩ := Option.ite_none_left_eq_some.mp h
      obtain ⟨⟨d, p, o⟩, hst, rfl⟩ := Option.map_eq_some_iff.mp he
      rw [not_or, Bool.not_eq_true] at hn
      exact .task hn.1 hn.2 hst
  | await =>
      obtain ⟨hw, he⟩ := Option.ite_none_right_eq_some.mp h
      split_ifs at he with hf
      · cases he
        exact .leaves hw hf
      · cases he
        exact .waits hw (not_le.mp hf)
  | upgrade =>
      simp only [step] at h
      split at h
      case h_1 hl =>
        cases h
        exact .upgrade hl
      case h_2 => cases h
  | flush a =>
      simp only [step] at h
      split at h
      case h_2 => cases h
      case h_1 hl =>
        obtain ⟨⟨ha, hk⟩, he⟩ := Option.ite_none_right_eq_some.mp h
        obtain ⟨⟨d, p, o⟩, hst, rfl⟩ := Option.map_eq_some_iff.mp he
        exact .flush hl ha hk hst
  | flushNothing =>
      simp only [step] at h
      split at h
      case h_1 hl hf he =>
        cases h
        exact .flushNothing hl hf he
      case h_2 => cases h
  | check =>
      simp only [step] at h
      split at h
      case h_1 r hl =>
        cases h
        exact .check hl
      case h_2 => cases h
  | flushNotified =>
      simp only [step] at h
      split at h
      case h_1 hl hn =>
        cases h
        exact .flushNotified hl hn
      case h_2 => cases h
  | shutdownNotified =>
      simp only [step] at h
      split at h
      case h_1 hl hn =>
        cases h
        exact .shutdownNotified hl hn
      case h_2 => cases h
  | retry =>
      simp only [step] at h
      split at h
      case h_1 hl =>
        cases h
        exact .retry hl
      case h_2 => cases h

end steps

/-! ### Runs -/

section runs
variable [Crc32] {s t u : DB} {e : Event} {P : DB → Event → Prop}

/-- Runs in which every event meets the condition `P` on the state before it. -/
abbrev Runs (P : DB → Event → Prop) : DB → DB → Prop :=
  Relation.ReflTransGen fun s t => ∃ e, P s e ∧ s.step e = some t

def exec (P : DB → Event → Prop) [∀ s e, Decidable (P s e)] (s : DB) : List Event → Option DB
  | [] => some s
  | e :: es =>
    if P s e then
      match s.step e with
      | some t => exec P t es
      | none => none
    else none

theorem runs_of_exec [∀ s e, Decidable (P s e)] {es : List Event} (h : exec P s es = some t) :
    Runs P s t := by
  induction es generalizing s with
  | nil => exact Option.some_inj.mp h ▸ .refl
  | cons e es ih =>
      unfold exec at h
      split_ifs at h with hP
      split at h
      case h_1 s' hs => exact .head ⟨e, hP, hs⟩ (ih h)
      case h_2 => cases h

theorem Runs.holds {I : DB → Prop} (h : Runs P s t) (hs : I s)
    (hstep : ∀ s e t, P s e → Transition s e t → I s → I t) : I t := by
  induction h with
  | refl => exact hs
  | tail _ hst ih =>
      obtain ⟨e, hP, he⟩ := hst
      exact hstep _ e _ hP (transition_of_eq he) ih

/-! ### The engine below -/

theorem sys_step {a : Act} {d : Dir} {p : Process} {o : Out}
    (h : s.proc.step s.dir a = some (d, p, o)) : LowDB.step s.sys a = some (⟨d, some p⟩, o) := by
  have hs : LowDB.step s.sys a = (s.proc.step s.dir a).map fun (d, p, o) => (⟨d, some p⟩, o) := by
    cases a with
    | crash => cases h
    | _ => rfl
  rw [hs, h]
  rfl

theorem opened_sys {d : Dir} (h : opened d = some s) : (openSys d).1 = s.sys := by
  unfold opened at h
  split at h
  case h_1 d p o ho =>
    cases h
    rw [ho]
    rfl
  case h_2 => cases h

end runs

/-! ### While a handle is alive -/

section lives
variable {s t : DB}

def Event.isDrop : Event → Bool
  | .drop _ => true
  | _ => false

/-- A handle dropped before `close` is called is the last one. -/
def DropsLast (s : DB) (e : Event) : Prop := e.isDrop → s.closed ∨ s.handles.count true = 1

instance (s : DB) (e : Event) : Decidable (DropsLast s e) := inferInstanceAs (Decidable (_ → _))

/-- In use, by handles that have not been closed. -/
structure Used (s : DB) : Prop where
  alive : true ∈ s.handles
  closed : s.closed = false

/-- As long as handles are in use, nothing asks the flush loop to end. -/
structure Lives (s : DB) : Prop where
  closing : s.closed = false → s.closing = 0
  shutdown : s.Used → s.shutdown = false
  flusher : s.Used → s.flusher ≠ .exited

theorem mem_of_alive {i : ℕ} (h : s.alive i) : true ∈ s.handles :=
  List.mem_of_getElem? (of_decide_eq_true h)

theorem owned_of_mem (h : true ∈ s.handles) : s.owned := by
  unfold owned
  rw [List.contains_iff_mem.mpr h]
  rfl

theorem count_drop {i : ℕ} (h : s.alive i) :
    (s.handles.set i false).count true = s.handles.count true - 1 := by
  obtain ⟨hi, he⟩ := List.getElem?_eq_some_iff.mp (of_decide_eq_true h)
  rw [List.count_set hi, he]
  simp

theorem acted_flusher (d : Dir) (p : Process) (a : Act) (o : Out) :
    (s.acted d p a o).flusher = .exited ↔ s.flusher = .exited := by
  unfold acted
  dsimp only
  split
  · exact FlushLoop.woken_eq_exited
  · rfl

/-- An event that leaves the flag, the handles and the calls of `close` as they are, and does not end
the loop. -/
theorem Lives.frame (h : Lives s) (hh : t.handles = s.handles) (hc : t.closed = s.closed)
    (hn : t.closing = s.closing) (hs : t.shutdown = s.shutdown)
    (hf : s.Used → t.flusher ≠ .exited) : Lives t := by
  have hu : t.Used → s.Used := fun u => ⟨hh ▸ u.alive, hc ▸ u.closed⟩
  exact ⟨fun hcl => hn.trans (h.closing (hc.symm.trans hcl)), fun u => hs.trans (h.shutdown (hu u)),
    fun u => hf (hu u)⟩

end lives

section runs
variable [Crc32] {s t u : DB} {e : Event} {P : DB → Event → Prop}

theorem Lives.step (h : Lives s) (hP : DropsLast s e) (ht : Transition s e t) : Lives t := by
  cases ht with
  | clone hi =>
      have hu (hc : s.closed = false) : s.Used := ⟨mem_of_alive hi, hc⟩
      exact ⟨h.closing, fun u => h.shutdown (hu u.closed), fun u => h.flusher (hu u.closed)⟩
  | @drop i hi =>
      have hnot (u : ({ s with handles := s.handles.set i false }.beginShutdown).Used) : False := by
        have hpos := List.count_pos_iff.mpr u.alive
        rcases hP rfl with hcl | hone
        · exact Bool.false_ne_true (u.closed.symm.trans hcl)
        · have hcount := count_drop hi
          unfold beginShutdown at hpos
          dsimp only at hpos
          omega
      exact ⟨h.closing, fun u => (hnot u).elim, fun u => (hnot u).elim⟩
  | close hi =>
      have hnot (hc : true = false) : False := Bool.false_ne_true hc.symm
      exact ⟨fun hc => (hnot hc).elim, fun u => (hnot u.closed).elim, fun u => (hnot u.closed).elim⟩
  | closes hpos =>
      have hnot (hc : s.closed = false) : False := hpos.ne' (h.closing hc)
      exact ⟨fun hc => (hnot hc).elim, fun u => (hnot u.closed).elim, fun u => (hnot u.closed).elim⟩
  | call | task =>
      exact h.frame rfl rfl rfl rfl fun u => mt (acted_flusher _ _ _ _).mp (h.flusher u)
  | leaves | waits => exact h.frame rfl rfl rfl rfl h.flusher
  | upgrade =>
      refine h.frame rfl rfl rfl rfl fun u => ?_
      rw [if_pos (owned_of_mem u.alive)]
      exact FlushLoop.noConfusion
  | @flush a o d p =>
      have hf (u : s.Used) := mt (acted_flusher d p a o).mp (h.flusher u)
      cases o with
      | flushed r => exact h.frame rfl rfl rfl rfl fun _ => FlushLoop.noConfusion
      | _ => exact h.frame rfl rfl rfl rfl hf
  | check =>
      refine h.frame rfl rfl rfl rfl fun u => ?_
      rw [h.shutdown u]
      exact FlushLoop.check_ne_exited _
  | flushNothing | flushNotified | shutdownNotified | retry =>
      exact h.frame rfl rfl rfl rfl fun _ => FlushLoop.noConfusion

theorem lives_opened {d : Dir} (h : opened d = some s) : Lives s := by
  unfold opened at h
  split at h
  case h_1 =>
    cases h
    exact ⟨fun _ => rfl, fun _ => rfl, fun _ => FlushLoop.noConfusion⟩
  case h_2 => cases h

/-! ### A flusher to wait for -/

/-- Of the loop, or a look of a commit that waits. -/
def Event.ofFlusher : Event → Bool
  | .await | .upgrade | .check | .flushNotified | .retry => true
  | _ => false

/-- Without anything else happening, the loop comes to `flush_oldest` in the same process. -/
def ComesToFlush (s : DB) : Prop :=
  ∃ u, Runs (fun _ e => e.ofFlusher) s u ∧ u.sys = s.sys ∧ u.flusher = .flushing

theorem ComesToFlush.of_step (h : ComesToFlush t) (hst : s.step e = some t) (he : e.ofFlusher)
    (hs : t.sys = s.sys) : ComesToFlush s := by
  obtain ⟨u, hr, hu, hf⟩ := h
  exact ⟨u, .head ⟨e, he, hst⟩ hr, hu.trans hs, hf⟩

theorem flushes_of_top (hl : s.flusher = .top) (ha : true ∈ s.handles) : ComesToFlush s := by
  have hst : s.step .upgrade = some { s with flusher := .flushing } := by
    simp only [step, hl, if_pos (owned_of_mem ha)]
  exact ComesToFlush.of_step ⟨_, .refl, rfl, rfl⟩ hst rfl rfl

theorem flushes_of_asleep (hl : s.flusher = .asleep) (ha : true ∈ s.handles) : ComesToFlush s := by
  have hst : s.step .retry = some { s with flusher := .top } := by simp only [step, hl]
  have htop : ComesToFlush { s with flusher := .top } := flushes_of_top rfl ha
  exact htop.of_step hst rfl rfl

theorem flushes_of_waiting (hl : s.flusher = .waiting) (ha : true ∈ s.handles)
    (hw : 0 < s.waiters) (hf : maxFrozen < s.proc.state.frozen.length) : ComesToFlush s := by
  have hlook : s.step .await = some { s with flushNotify := true } := by
    simp only [step, if_pos hw, if_neg (not_le.mpr hf)]
  have hwake : ({ s with flushNotify := true } : DB).step .flushNotified =
      some { s with flushNotify := false, flusher := .top } := by simp only [step, hl]
  have htop : ComesToFlush { s with flushNotify := false, flusher := .top } := flushes_of_top rfl ha
  exact (htop.of_step hwake rfl rfl).of_step hlook rfl rfl

theorem flushes_of_flushed {r : DbResult Bool} (hl : s.flusher = .flushed r) (ha : true ∈ s.handles)
    (hs : s.shutdown = false) (hw : 0 < s.waiters)
    (hf : maxFrozen < s.proc.state.frozen.length) : ComesToFlush s := by
  have hst : s.step .check = some { s with flusher := .check false r } := by
    simp only [step, hl, hs]
  refine ComesToFlush.of_step ?_ hst rfl rfl
  cases r with
  | error e => exact flushes_of_asleep rfl ha
  | ok b =>
      cases b with
      | true => exact flushes_of_top rfl ha
      | false => exact flushes_of_waiting rfl ha hw hf

/-- A commit that waits for room has a flusher to wait for. -/
theorem Lives.flushes (h : Lives s) (hu : s.Used) (hw : 0 < s.waiters)
    (hf : maxFrozen < s.proc.state.frozen.length) : ComesToFlush s := by
  cases hl : s.flusher with
  | top => exact flushes_of_top hl hu.alive
  | flushing => exact ⟨s, .refl, rfl, hl⟩
  | flushed r => exact flushes_of_flushed hl hu.alive (h.shutdown hu) hw hf
  | waiting => exact flushes_of_waiting hl hu.alive hw hf
  | asleep => exact flushes_of_asleep hl hu.alive
  | exited => exact absurd hl (h.flusher hu)

/-- In runs where a handle dropped before `close` is called is the last one, the flag is not set and
the flush loop goes on as long as a handle is alive and `close` has not been called. -/
theorem flusher_lives {d : Dir} (ho : opened d = some s) (h : Runs DropsLast s t)
    (ha : true ∈ t.handles) (hc : t.closed = false) :
    t.shutdown = false ∧ t.flusher ≠ .exited ∧
      (0 < t.waiters → maxFrozen < t.proc.state.frozen.length → ComesToFlush t) := by
  have hl : Lives t := h.holds (lives_opened ho) fun _ _ _ hP ht hs => hs.step hP ht
  have hu : t.Used := ⟨ha, hc⟩
  exact ⟨hl.shutdown hu, hl.flusher hu, hl.flushes hu⟩

/-! ### When another handle is dropped -/

/-- Every other drop sets the flag while a handle is in use. -/
theorem shutdown_of_drop {i : ℕ} (h : s.step (.drop i) = some t) (hP : ¬ DropsLast s (.drop i)) :
    t.Used ∧ t.shutdown = true := by
  obtain ⟨-, hP⟩ := Classical.not_imp.mp hP
  obtain ⟨hcl, hcount⟩ := not_or.mp hP
  cases transition_of_eq h with
  | drop hi =>
      have hpos : 0 < s.handles.count true := List.count_pos_iff.mpr (mem_of_alive hi)
      have hset := count_drop hi
      refine ⟨⟨List.count_pos_iff.mp ?_, Bool.eq_false_of_not_eq_true hcl⟩, rfl⟩
      unfold beginShutdown
      dsimp only
      omega

theorem Runs.shutdown (h : Runs P s t) (hs : s.shutdown = true) : t.shutdown = true :=
  h.holds (I := fun s => s.shutdown = true) hs fun s e t _ ht hs => by
    cases ht with
    | @flush _ o => cases o <;> exact hs
    | drop | closes => rfl
    | _ => exact hs

theorem Runs.exited (h : Runs P s t) (hs : s.flusher = .exited) : t.flusher = .exited :=
  h.holds (I := fun s => s.flusher = .exited) hs fun s e t _ ht hs => by
    cases ht with
    | call | task => exact (acted_flusher _ _ _ _).mpr hs
    | upgrade hl | flush hl | flushNothing hl | check hl | flushNotified hl | shutdownNotified hl
    | retry hl => cases hs.symm.trans hl
    | _ => exact hs

end runs

/-- A call of `DB::set`, which then looks whether there is room. -/
def setEvents (i : ℕ) (k v : Str) : List Event :=
  .call i (.set k v) :: ((setActs k v).tail.map .task ++ [.await])

/-- A call of `DB::flush` whose table cannot be written. -/
def flushFailsEvents (i : ℕ) : List Event :=
  .call i .freeze :: [Act.createLog, .swap, .pick, .writeTableFails].map .task

/-- Five sets, each followed by a flush that fails, then a set. -/
def crowd (i : ℕ) : List Event :=
  (List.replicate 5 (setEvents i keyK textOne ++ flushFailsEvents i)).flatten ++
    setEvents i keyK textTwo

/-- The calls are made on a clone, and neither handle is dropped. -/
def flusherLivesCrowd : Option (DB × DB) := do
  let s ← @opened crc32 Sys.init.dir
  let t ← @exec crc32 DropsLast _ s
    ([.clone 0, .upgrade, .flushNothing, .check] ++ crowd 1)
  if true ∈ t.handles ∧ t.closed = false ∧ 0 < t.waiters ∧ maxFrozen < t.proc.state.frozen.length then
    return (s, t) else none

theorem flusher_lives_crowd : ∃ s t : DB, @opened crc32 Sys.init.dir = some s ∧
    @Runs crc32 DropsLast s t ∧ true ∈ t.handles ∧ t.closed = false ∧ 0 < t.waiters ∧
      maxFrozen < t.proc.state.frozen.length ∧ t.shutdown = false ∧ t.flusher ≠ .exited ∧
        @ComesToFlush crc32 t := by
  have h : flusherLivesCrowd.isSome := by decide +kernel
  obtain ⟨⟨s, t⟩, h⟩ := Option.isSome_iff_exists.mp h
  unfold flusherLivesCrowd at h
  simp only [bind, Option.bind_eq_some_iff] at h
  obtain ⟨_, ho, _, ht, he⟩ := h
  split_ifs at he with hx
  cases he
  obtain ⟨ha, hc, hw, hf⟩ := hx
  have hrun := @runs_of_exec crc32 _ _ _ _ _ ht
  obtain ⟨hs, hl, hflush⟩ := @flusher_lives crc32 s t _ ho hrun ha hc
  exact ⟨s, t, ho, hrun, ha, hc, hw, hf, hs, hl, hflush hw hf⟩

/-- Any event. -/
def AnyEvent (_ : DB) (_ : Event) : Prop := True

instance (s : DB) (e : Event) : Decidable (AnyEvent s e) := .isTrue trivial

/-- A clone is dropped, which ends the loop. -/
def flusherExits : Option (DB × DB) := do
  let s ← @opened crc32 Sys.init.dir
  let t ← @exec crc32 AnyEvent _ s
    ([.clone 0, .upgrade, .flushNothing, .check, .drop 1, .shutdownNotified, .upgrade, .flushNothing,
      .check] ++ crowd 0)
  match t.flusher with
  | .exited =>
    if true ∈ t.handles ∧ t.closed = false ∧ t.shutdown ∧ 0 < t.waiters ∧
      maxFrozen < t.proc.state.frozen.length then return (s, t) else none
  | _ => none

/-- Without the condition a commit waits for room while a handle is alive, and the flush loop has ended
for good. -/
theorem flusher_exits : ∃ s t : DB, @opened crc32 Sys.init.dir = some s ∧
    @Runs crc32 AnyEvent s t ∧ true ∈ t.handles ∧ t.closed = false ∧ t.shutdown = true ∧
      0 < t.waiters ∧ maxFrozen < t.proc.state.frozen.length ∧
        ∀ u, @Runs crc32 AnyEvent t u → u.flusher = .exited := by
  have h : flusherExits.isSome := by decide +kernel
  obtain ⟨⟨s, t⟩, h⟩ := Option.isSome_iff_exists.mp h
  unfold flusherExits at h
  simp only [bind, Option.bind_eq_some_iff] at h
  obtain ⟨_, ho, _, ht, he⟩ := h
  split at he
  case h_1 hl =>
    split_ifs at he with hx
    cases he
    obtain ⟨ha, hc, hs, hw, hf⟩ := hx
    exact ⟨s, t, ho, @runs_of_exec crc32 _ _ _ _ _ ht, ha, hc, hs, hw, hf,
      fun u hu => @Runs.exited crc32 _ _ _ hu hl⟩
  case h_2 => cases he

end DB

end LowDB
