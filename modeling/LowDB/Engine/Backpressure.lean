import LowDB.Engine.Backlog
import LowDB.Engine.Lifetime

/-! # Back-pressure

A commit that has frozen its memtable returns only when at most `MAX_FROZEN` memtables are frozen
(`await_flush_capacity`).  The flush loop makes room as far as it can: what it cannot write keeps its place
(`Process.stuck`).

The main results are `room_iff`, that the commits which wait can return exactly if no more than `MAX_FROZEN`
memtables are stuck, and otherwise never do, and `queue_le`, that the number of frozen memtables is bounded
by the commits that wait and the calls of `DB::flush`. -/

namespace LowDB

namespace DB

/-! ### Events -/

namespace Event

/-- An I/O operation fails. -/
def fails : Event → Bool
  | call _ a | task a | flush a => a.fails
  | _ => false

/-- Part of what is under way: the flush loop, a look of a commit that waits, and what the holders of the
locks do. -/
def goesOn : Event → Bool
  | await | upgrade | check | flushNotified | retry => true
  | flush a => a.takesFlushLock || a.goesOnFlushing
  | task a => a.unpins || a.goesOnFlushing
  | _ => false

theorem fails_of_goesOn (e : Event) (h : e.goesOn) : e.fails = false := by
  cases e with
  | task a =>
      cases Bool.or_eq_true_iff.mp h with
      | inl h => exact Act.fails_of_unpins h
      | inr h => exact Act.fails_of_goesOnFlushing h
  | flush a =>
      cases Bool.or_eq_true_iff.mp h with
      | inl h =>
          cases a with
          | pick => rfl
          | _ => cases h
      | inr h => exact Act.fails_of_goesOnFlushing h
  | await | upgrade | check | flushNotified | retry => rfl
  | _ => cases h

end Event

/-- No I/O operation fails. -/
def Unfailing (_ : DB) (e : Event) : Prop := e.fails = false

/-- No new call is made. -/
def GoesOn (_ : DB) (e : Event) : Prop := e.goesOn

/-- A handle dropped before `close` is called is the last one, and nothing fails. -/
def Undisturbed (s : DB) (e : Event) : Prop := DropsLast s e ∧ Unfailing s e

instance (s : DB) (e : Event) : Decidable (Undisturbed s e) := inferInstanceAs (Decidable (_ ∧ _ = _))

theorem GoesOn.undisturbed {s : DB} {e : Event} (h : GoesOn s e) : Undisturbed s e := by
  refine ⟨fun hd => ?_, e.fails_of_goesOn h⟩
  cases e with
  | drop => cases h
  | _ => cases hd

section steps
variable [Crc32] {s t : DB} {e : Event} {d d' : Dir} {p p' : Process} {a : Act} {o : Out}

theorem flush_of_step (hs : Step d p a o d' p') (ha : a.flushes = false) : p'.flush = p.flush := by
  cases hs with
  | pick | writeTable | writeNothing | writeRefused | writeTableFails | install | retire | removeLog
  | removeLogFails => cases ha
  | _ => rfl

/-- What `flush_oldest` does short of returning keeps the lock. -/
theorem flush_ne_free_of_step (hs : Step d p a o d' p') (ha : a.flushes) (ho : ∀ r, o ≠ .flushed r) :
    p'.flush ≠ .free := by
  cases hs with
  | pick | writeTable | writeNothing | install | retire => exact FlushLock.noConfusion
  | writeRefused | writeTableFails | removeLog | removeLogFails => exact absurd rfl (ho _)
  | _ => cases ha

/-- What an event does to the engine. -/
theorem Transition.engine (h : Transition s e t) :
    t.sys = s.sys ∨ ∃ a o, a.fails = e.fails ∧ LowDB.step s.sys a = some (t.sys, o) ∧
      Step s.dir s.proc a o t.dir t.proc := by
  cases h with
  | @call _ a o d p _ _ hst | @task a o d p _ _ hst =>
      exact .inr ⟨a, o, rfl, sys_step hst, step_of_eq hst⟩
  | @flush a o d p _ _ _ hst =>
      have hstep := step_of_eq hst
      refine .inr ⟨a, o, rfl, (sys_step hst).trans ?_, ?_⟩
      · cases o <;> rfl
      · cases o <;> exact hstep
  | _ => exact .inl rfl

/-- What holds of an open database. -/
structure Sound (s : DB) : Prop where
  reach : Reach NoFailure s.sys
  lives : Lives s
  locked : s.flusherLocks → s.flusher = .flushing ∧ s.proc.flush ≠ .free

theorem locked_step (h : s.flusherLocks → s.flusher = .flushing ∧ s.proc.flush ≠ .free)
    (ht : Transition s e t) : t.flusherLocks → t.flusher = .flushing ∧ t.proc.flush ≠ .free := by
  have hact {d p a o} (hst : s.proc.step s.dir a = some (d, p, o)) (ha : s.flusherLocks → a.flushes = false)
      (hk : s.flusherLocks) : (s.acted d p a o).flusher = .flushing ∧ p.flush ≠ .free := by
    obtain ⟨hl, hf⟩ := h hk
    refine ⟨?_, flush_of_step (step_of_eq hst) (ha hk) ▸ hf⟩
    unfold acted
    dsimp only
    rw [hl]
    exact ite_self _
  have hnot {l : FlushLoop} (hl : s.flusher = l) (hne : l ≠ .flushing) (hk : s.flusherLocks) : False :=
    hne (hl.symm.trans (h hk).1)
  cases ht with
  | @call i a o d p hi ha hst =>
      refine hact hst fun _ => ?_
      cases a with
      | set | freeze | snapshot | transaction | get => rfl
      | _ => cases ha
  | @task a o d p ha hf hst =>
      exact hact hst fun hk => Bool.eq_false_of_not_eq_true fun ha => hf ⟨ha, hk⟩
  | @flush a o d p hl ha hk hst =>
      have hfl : (s.acted d p a o).flusher = .flushing := by
        unfold acted
        dsimp only
        rw [hl]
        exact ite_self _
      have hstep := step_of_eq hst
      cases o with
      | flushed r => exact fun hk => absurd hk Bool.false_ne_true
      | _ => exact fun _ => ⟨hfl, flush_ne_free_of_step hstep ha fun _ h => Out.noConfusion h⟩
  | upgrade hl | check hl | flushNotified hl | shutdownNotified hl | retry hl =>
      exact fun hk => (hnot hl FlushLoop.noConfusion hk).elim
  | flushNothing hl hf => exact fun hk => absurd hf (h hk).2
  | _ => exact h

theorem Transition.reach (ht : Transition s e t) (he : e.fails = false) (h : Reach NoFailure s.sys) :
    Reach NoFailure t.sys := by
  cases ht.engine with
  | inl hsys => exact hsys ▸ h
  | inr hst =>
      obtain ⟨a, o, ha, hst, -⟩ := hst
      exact h.tail (ha.trans he) hst

/-- What an event does to the memtables that wait. -/
theorem Transition.queued (ht : Transition s e t) (he : e.fails = false) (h : Reach NoFailure s.sys) :
    s.proc.Queued t.proc ∧ ∀ id ∈ s.proc.queue, t.proc.mems id = s.proc.mems id := by
  cases ht.engine with
  | inl hsys =>
      have hp : t.proc = s.proc := Option.some.inj (congrArg Sys.proc hsys)
      exact hp ▸ ⟨.same rfl rfl, fun _ _ => rfl⟩
  | inr hst =>
      obtain ⟨a, o, ha, -, hst⟩ := hst
      have hsteady : s.proc.Steady s.dir := h.steady
      have hord := hsteady.ordered
      exact ⟨Process.queued_of_step hord.ids hord.flush h.midway (ha.trans he) hst,
        fun id => Process.mems_of_step hord.ids hst⟩

theorem Sound.step (h : Sound s) (hP : Undisturbed s e) (ht : Transition s e t) : Sound t where
  reach := ht.reach hP.2 h.reach
  lives := h.lives.step hP.1 ht
  locked := locked_step h.locked ht

/-- Handles stay as they are while no call is made. -/
theorem Used.goesOn (h : s.Used) (he : e.goesOn) (ht : Transition s e t) : t.Used := by
  cases ht with
  | @flush _ o => cases o <;> exact ⟨h.alive, h.closed⟩
  | task | leaves | waits | upgrade | check | flushNotified | retry => exact ⟨h.alive, h.closed⟩
  | _ => cases he

theorem sound_opened {d : Dir} (hd : Reach NoFailure ⟨d, none⟩) (ho : opened d = some s) : Sound s where
  reach := by
    have hopen : LowDB.step ⟨d, none⟩ .open = some (s.sys, (openSys d).2) := by
      rw [← opened_sys ho]
      rfl
    exact hd.tail (a := .open) rfl hopen
  lives := lives_opened ho
  locked := by
    unfold opened at ho
    split at ho
    case h_1 =>
      cases ho
      exact fun hk => absurd hk Bool.false_ne_true
    case h_2 => cases ho

/-! ### Making room -/

/-- One event of what is under way. -/
def Goes (s t : DB) : Prop := ∃ e, GoesOn s e ∧ s.step e = some t

/-- A database in use, where no more memtables are stuck than may be frozen. -/
structure Room (s : DB) : Prop where
  sound : Sound s
  used : s.Used
  stuck : s.proc.stuck.length ≤ maxFrozen

/-- The holder of the commit lock does not keep `retire` out. -/
def Unpinned (s : DB) : Prop := s.proc.commit.pinsState = false

theorem Room.of_event (h : Room s) (he : e.goesOn) (hst : s.step e = some t)
    (hs : t.proc.stuck = s.proc.stuck) : Goes s t ∧ Room t := by
  have ht := transition_of_eq hst
  exact ⟨⟨e, he, hst⟩, h.sound.step (GoesOn.undisturbed he) ht, h.used.goesOn he ht, hs ▸ h.stuck⟩

/-- An event that leaves the commit lock alone. -/
theorem stuck_of_event (h : Sound s) (hu : Unpinned s) (he : e.fails = false) (ht : Transition s e t)
    (hc : t.proc.commit = s.proc.commit) : t.proc.stuck = s.proc.stuck := by
  obtain ⟨hq, hm⟩ := ht.queued he h.reach
  have hfr : t.proc.commit.freezes = false := hc ▸ CommitLock.freezes_of_not_pins hu
  exact (hq.stuck hm).resolve_right fun h => Bool.false_ne_true (hfr.symm.trans h.1)

theorem step_task (h : s.proc.step s.dir a = some (d, p, o)) (hs : a.startsCall = false)
    (hf : ¬ (a.flushes ∧ s.flusherLocks)) : s.step (.task a) = some (s.acted d p a o) := by
  have hn : ¬ (a.startsCall ∨ (a.flushes ∧ s.flusherLocks)) := by simp_all
  simp only [step, if_neg hn, h, Option.map_some]

theorem step_flush (h : s.proc.step s.dir a = some (d, p, o)) (hl : s.flusher = .flushing)
    (ha : a.flushes) (hk : a.takesFlushLock ∨ s.flusherLocks) :
    ∃ t, s.step (.flush a) = some t ∧ t.proc = p := by
  refine ⟨s.flusherActed d p a o, ?_, by cases o <;> rfl⟩
  simp only [step, hl, if_pos (And.intro ha hk), h, Option.map_some]

theorem room_leadsTo_unpinned : LeadsTo Goes Room fun s : DB => Room s ∧ Unpinned s := by
  refine .of_measure (fun s => s.proc.commit.left) fun s h hn => ?_
  have hmid : s.proc.Midway := h.sound.reach.midway
  have hsteady : s.proc.Steady s.dir := h.sound.reach.steady
  obtain ⟨a, o, d, p, ha, hst, hq, hlt⟩ :=
    Process.exists_unpins s.dir hmid (Bool.eq_true_of_not_eq_false hn)
  have hcall : a.startsCall = false ∧ a.flushes = false := by
    cases a with
    | append | put | createLog | swap => exact ⟨rfl, rfl⟩
    | _ => cases ha
  have hstep := step_task hst hcall.1 fun h => Bool.false_ne_true (hcall.2.symm.trans h.1)
  have hmem : ∀ id ∈ s.proc.queue, p.mems id = s.proc.mems id := fun id =>
    Process.mems_of_step hsteady.ordered.ids (step_of_eq hst)
  have hgo : (Event.task a).goesOn := Bool.or_eq_true_iff.mpr (.inl ha)
  obtain ⟨hgoes, hroom⟩ := h.of_event hgo hstep (Process.stuck_eq hmem hq)
  exact ⟨_, .single hgoes, hroom, hlt⟩

/-- The loop on its way to `flush_oldest`. -/
theorem Room.of_loop (h : Room s) (hr : Runs (fun _ e => e.ofFlusher) s t) :
    Relation.ReflTransGen Goes s t ∧ Room t := by
  induction hr with
  | refl => exact ⟨.refl, h⟩
  | @tail u v _ hst ih =>
      obtain ⟨e, he, hst⟩ := hst
      have hgo : e.goesOn := by
        cases e with
        | await | upgrade | check | flushNotified | retry => rfl
        | _ => cases he
      have hproc : v.proc = u.proc := by
        cases transition_of_eq hst with
        | leaves | waits | upgrade | check | flushNotified | retry => rfl
        | _ => cases he
      obtain ⟨hgoes, hroom⟩ := ih.2.of_event hgo hst (congrArg _ hproc)
      exact ⟨ih.1.tail hgoes, hroom⟩

/-- The oldest memtable can be written where some are not stuck. -/
theorem writable_last (hl : s.proc.stuck.length < s.proc.queue.length) {mt : ℕ}
    (hmt : s.proc.queue.getLast? = some mt) : s.proc.writable mt := by
  by_contra hw
  obtain ⟨fs, hfs⟩ := List.getLast?_eq_some_iff.mp hmt
  unfold Process.stuck at hl
  rw [hfs, List.rdropWhile_concat_neg _ _ _ hw] at hl
  exact lt_irrefl _ hl

/-- The loop gets to `flush_oldest` or goes on in it, or whoever has the flush lock goes on. -/
theorem Room.flushes (h : Room s) (hu : Unpinned s) (hw : 0 < s.waiters)
    (hf : maxFrozen < s.proc.state.frozen.length) :
    ∃ t, Relation.ReflTransGen Goes s t ∧ (Room t ∧ Unpinned t) ∧ t.proc.work < s.proc.work := by
  have hsteady : s.proc.Steady s.dir := h.sound.reach.steady
  have hids := hsteady.ordered.ids
  have hq := Process.queue_of_not_freezes (CommitLock.freezes_of_not_pins hu)
  have hne : s.proc.state.frozen ≠ [] := List.ne_nil_of_length_pos ((Nat.zero_le _).trans_lt hf)
  obtain ⟨a, o, d, p, ha, hst, hc, hlt⟩ := Process.exists_flushes s.dir hids hsteady.ordered.flush hu
    (fun _ => hne) fun mt hmt => writable_last (hq ▸ h.stuck.trans_lt hf) (hq ▸ hmt)
  -- the event after which the process is `p`
  have hgo {u t : DB} {e : Event} (hsu : Relation.ReflTransGen Goes s u) (hr : Room u)
      (hp : u.proc = s.proc) (he : e.goesOn) (hst : u.step e = some t) (ht : t.proc = p) :
      ∃ t, Relation.ReflTransGen Goes s t ∧ (Room t ∧ Unpinned t) ∧ t.proc.work < s.proc.work := by
    have hcu : t.proc.commit = u.proc.commit := by rw [ht, hc, hp]
    have huu : Unpinned u := by rwa [Unpinned, hp]
    have hut : Unpinned t := by rwa [Unpinned, hcu]
    have htr := transition_of_eq hst
    obtain ⟨hgoes, hroom⟩ := hr.of_event he hst
      (stuck_of_event hr.sound huu (e.fails_of_goesOn he) htr hcu)
    exact ⟨t, hsu.tail hgoes, ⟨hroom, hut⟩, by rwa [ht]⟩
  rcases ha with ⟨hfree, rfl⟩ | ⟨hbusy, ha⟩
  · obtain ⟨u, hrun, hsys, hfl⟩ := h.sound.lives.flushes h.used hw hf
    have hdir : u.dir = s.dir := congrArg Sys.dir hsys
    have hproc : u.proc = s.proc := Option.some.inj (congrArg Sys.proc hsys)
    obtain ⟨hsu, hu⟩ := h.of_loop hrun
    have hst' : u.proc.step u.dir .pick = some (d, p, o) := by rw [hdir, hproc, hst]
    obtain ⟨t, hstep, ht⟩ := step_flush hst' hfl rfl (.inl rfl)
    exact hgo hsu hu hproc rfl hstep ht
  · have hfl : a.flushes ∧ a.startsCall = false := by
      cases a with
      | writeTable | install | retire | removeLog => exact ⟨rfl, rfl⟩
      | _ => cases ha
    have hev : (Event.flush a).goesOn ∧ (Event.task a).goesOn :=
      ⟨Bool.or_eq_true_iff.mpr (.inr ha), Bool.or_eq_true_iff.mpr (.inr ha)⟩
    by_cases hk : s.flusherLocks
    · obtain ⟨t, hstep, ht⟩ := step_flush hst (h.sound.locked hk).1 hfl.1 (.inr hk)
      exact hgo .refl h rfl hev.1 hstep ht
    · exact hgo .refl h rfl hev.2 (step_task hst hfl.2 fun h => hk h.2) rfl

theorem unpinned_leadsTo_few : LeadsTo Goes (fun s : DB => Room s ∧ Unpinned s)
    fun s => s.waiters = 0 ∨ s.proc.state.frozen.length ≤ maxFrozen := by
  refine (LeadsTo.of_measure (fun s => s.proc.work) fun s h hn => ?_).trans (.of_imp fun _ h => h.2)
  obtain ⟨hw, hf⟩ := not_or.mp hn
  exact h.1.flushes h.2 (Nat.pos_of_ne_zero hw) (not_le.mp hf)

/-- The commits that wait look and return. -/
theorem few_leadsTo_returned : LeadsTo Goes (fun s : DB => s.proc.state.frozen.length ≤ maxFrozen)
    fun s => s.waiters = 0 := by
  refine (LeadsTo.of_measure waiters fun s hf hn => ?_).trans (.of_imp fun _ h => h.2)
  have hw : 0 < s.waiters := Nat.pos_of_ne_zero hn
  have hst : s.step .await = some { s with waiters := s.waiters - 1 } := by
    simp only [step, if_pos hw, if_pos hf]
  exact ⟨_, .single ⟨.await, rfl, hst⟩, hf, Nat.sub_lt hw Nat.zero_lt_one⟩

theorem room_leadsTo_returned : LeadsTo Goes Room fun s : DB => s.waiters = 0 := by
  refine room_leadsTo_unpinned.trans (unpinned_leadsTo_few.trans fun s h => ?_)
  cases h with
  | inl hw => exact ⟨s, .refl, hw⟩
  | inr hf => exact few_leadsTo_returned s hf

/-! ### No room -/

/-- More memtables are stuck than may be frozen. -/
def Full (p : Process) : Prop := maxFrozen < p.state.frozen.length ∧ maxFrozen < p.stuck.length

theorem Full.step (h : Full p) (hq : p.Queued p') (hm : ∀ id ∈ p.queue, p'.mems id = p.mems id) :
    Full p' := by
  have hstuck : maxFrozen < p'.stuck.length := by
    rcases hq.stuck hm with hs | ⟨-, hs⟩
    · exact hs ▸ h.2
    · rw [hs (List.ne_nil_of_length_pos ((Nat.zero_le _).trans_lt h.2))]
      exact h.2.trans (Nat.lt_succ_self _)
  have hle : p'.stuck.length ≤ p'.queue.length := (List.rdropWhile_prefix _ _).length_le
  refine ⟨?_, hstuck⟩
  cases hq with
  | same hf | joins hf => exact hf ▸ h.1
  | freezes hf hq => exact hf ▸ hq ▸ hstuck.trans_le hle
  | retires _ _ _ hq' => exact hq' ▸ hstuck.trans_le hle

/-- No commit that waits returns. -/
theorem Runs.full (h : Runs Unfailing s t) (hr : Reach NoFailure s.sys) (hf : Full s.proc) :
    Full t.proc ∧ s.waiters ≤ t.waiters := by
  have hall := h.holds (I := fun t => Reach NoFailure t.sys ∧ Full t.proc ∧ s.waiters ≤ t.waiters)
    ⟨hr, hf, le_rfl⟩ fun u e v he ht hi => ?_
  · exact hall.2
  obtain ⟨hr, hf, hw⟩ := hi
  obtain ⟨hq, hm⟩ := ht.queued he hr
  refine ⟨ht.reach he hr, hf.step hq hm, hw.trans ?_⟩
  have hact (d p a o) : u.waiters ≤ (u.acted d p a o).waiters := by
    unfold acted
    dsimp only
    split <;> omega
  cases ht with
  | call | task => exact hact _ _ _ _
  | @flush a o d p => cases o <;> exact hact d p a _
  | leaves _ hle => exact absurd hle hf.1.not_ge
  | _ => exact le_rfl

/-- **Back-pressure**: in undisturbed runs the commits that wait for room can return, without any new call,
exactly if few memtables are frozen or few are stuck.  Otherwise none of them ever returns, whatever is
called, as long as nothing fails. -/
theorem room_iff {d : Dir} (hd : Reach NoFailure ⟨d, none⟩) (ho : opened d = some s)
    (h : Runs Undisturbed s t) (ha : true ∈ t.handles) (hc : t.closed = false) (hw : 0 < t.waiters) :
    ((∃ u, Runs GoesOn t u ∧ u.waiters = 0) ↔
      t.proc.state.frozen.length ≤ maxFrozen ∨ t.proc.stuck.length ≤ maxFrozen) ∧
    (maxFrozen < t.proc.state.frozen.length → maxFrozen < t.proc.stuck.length →
      ∀ u, Runs Unfailing t u → t.waiters ≤ u.waiters) := by
  have hs : Sound t := h.holds (sound_opened hd ho) fun _ _ _ hP ht hs => hs.step hP ht
  have hfull (hf : maxFrozen < t.proc.state.frozen.length) (hst : maxFrozen < t.proc.stuck.length)
      {u : DB} (hu : Runs Unfailing t u) : t.waiters ≤ u.waiters := (hu.full hs.reach ⟨hf, hst⟩).2
  refine ⟨⟨?_, fun hroom => ?_⟩, fun hf hst u hu => hfull hf hst hu⟩
  · rintro ⟨u, hu, hzero⟩
    by_contra hn
    obtain ⟨hf, hst⟩ := not_or.mp hn
    have hu : Runs Unfailing t u := Relation.ReflTransGen.mono
      (fun _ _ ⟨e, he, hst⟩ => ⟨e, e.fails_of_goesOn he, hst⟩) _ _ hu
    have hle := hfull (not_le.mp hf) (not_le.mp hst) hu
    exact hw.ne' (Nat.le_zero.mp (hzero ▸ hle))
  · cases hroom with
    | inl hf => exact few_leadsTo_returned t hf
    | inr hst => exact room_leadsTo_returned t ⟨hs, ⟨ha, hc⟩, hst⟩

/-! ### How many memtables wait -/

end steps

end DB

/-- A freeze that no commit waits for. -/
def CommitLock.unpaid : CommitLock → ℕ
  | freezing | created none _ => 1
  | _ => 0

def Act.isFreeze : Act → Bool
  | freeze => true
  | _ => false

/-- A memtable is frozen for a commit that goes on to wait or for a call of `DB::flush`. -/
theorem frozen_of_step [Crc32] {d d' : Dir} {p p' : Process} {a : Act} {o : Out}
    (hs : Step d p a o d' p') :
    p'.state.frozen.length + p'.commit.unpaid ≤
        p.state.frozen.length + p.commit.unpaid + (a.awaits o).toNat + a.isFreeze.toNat ∧
      p'.commit.unpaid ≤ p.commit.unpaid + a.isFreeze.toNat := by
  have hkeep (hf : p'.state.frozen.length ≤ p.state.frozen.length)
      (hc : p'.commit.unpaid ≤ p.commit.unpaid) :
      p'.state.frozen.length + p'.commit.unpaid ≤
          p.state.frozen.length + p.commit.unpaid + (a.awaits o).toNat + a.isFreeze.toNat ∧
        p'.commit.unpaid ≤ p.commit.unpaid + a.isFreeze.toNat := ⟨by omega, by omega⟩
  cases hs with
  | freeze hc => simp [CommitLock.unpaid, Act.isFreeze, hc]
  | @createLog oc hc => cases oc <;> exact hkeep le_rfl (by simp [CommitLock.unpaid, hc])
  | @swap oc id hc =>
      -- either a commit goes on to wait, or the freeze was counted when it began
      cases oc <;>
        simp [CommitLock.unpaid, Act.awaits, Act.isFreeze, Process.frozenOut, State.ids, hc]
  | retire => exact hkeep (List.length_filter_le _ _) le_rfl
  | set | commit | stamp | appendBegin | appendBatch | refuse | appendCommit | appendFails | put
  | record | publish | watermark | prune | finish | createLogFails | freezeFails =>
      exact hkeep le_rfl (Nat.zero_le _)
  | _ => exact hkeep le_rfl le_rfl

namespace DB

/-- A call of `DB::flush`, or the flush of a call of `DB::close`. -/
def Event.isFlush : Event → Bool
  | call _ a => a.isFreeze
  | _ => false

section bound
variable [Crc32] {s t : DB} {e : Event} {P : DB → Event → Prop} {B n : ℕ}

/-- After `n` calls of `DB::flush`. -/
structure Bounded (B n : ℕ) (s : DB) : Prop where
  frozen : s.proc.state.frozen.length + s.proc.commit.unpaid ≤ max maxFrozen B + s.waiters + n
  unpaid : s.proc.commit.unpaid ≤ n

theorem Bounded.step (h : Bounded B n s) (ht : Transition s e t) : Bounded B (n + e.isFlush.toNat) t := by
  obtain ⟨hf, hu⟩ := h
  have hact {d p a o} (hst : s.proc.step s.dir a = some (d, p, o)) (he : a.isFreeze = e.isFlush) :
      p.state.frozen.length + p.commit.unpaid ≤
          max maxFrozen B + (s.acted d p a o).waiters + (n + e.isFlush.toNat) ∧
        p.commit.unpaid ≤ n + e.isFlush.toNat := by
    obtain ⟨hfr, hun⟩ := frozen_of_step (step_of_eq hst)
    rw [he] at hfr hun
    unfold acted
    dsimp only
    refine ⟨?_, by omega⟩
    cases ha : a.awaits o <;> simp only [ha, Bool.toNat_true, Bool.toNat_false] at hfr ⊢ <;> simp <;> omega
  cases ht with
  | @call i a o d p hi ha hst =>
      obtain ⟨h₁, h₂⟩ := hact hst rfl
      exact ⟨h₁, h₂⟩
  | @task a o d p ha hk hst =>
      have hne : a.isFreeze = false := by
        cases a with
        | freeze => cases ha
        | _ => rfl
      obtain ⟨h₁, h₂⟩ := hact hst hne
      exact ⟨h₁, h₂⟩
  | @flush a o d p hl ha hk hst =>
      have hne : a.isFreeze = false := by
        cases a with
        | freeze => cases ha
        | _ => rfl
      obtain ⟨h₁, h₂⟩ := hact hst hne
      cases o <;> exact ⟨h₁, h₂⟩
  | leaves hw hle =>
      have hmax := le_max_left maxFrozen B
      exact ⟨by simp only [Event.isFlush, Bool.toNat_false]; omega, hu⟩
  | _ => exact ⟨hf, hu⟩

theorem Bounded.exec [∀ s e, Decidable (P s e)] {es : List Event} (h : Bounded B n s)
    (ht : exec P s es = some t) : Bounded B (n + es.countP Event.isFlush) t := by
  induction es generalizing s n with
  | nil => exact Option.some_inj.mp ht ▸ h
  | cons e es ih =>
      unfold DB.exec at ht
      split_ifs at ht with hP
      split at ht
      case h_1 u hu =>
        have hn : n + e.isFlush.toNat + es.countP Event.isFlush =
            n + (e :: es).countP Event.isFlush := by
          rw [List.countP_cons]
          cases e.isFlush with
          | false => simp
          | true => simp [Nat.add_comm, Nat.add_left_comm]
        exact hn ▸ ih (h.step (transition_of_eq hu)) ht
      case h_2 => cases ht

theorem opened_commit {d : Dir} (ho : opened d = some s) : s.proc.commit = .free := by
  unfold opened openSys at ho
  split at ho
  case h_1 p o hopen =>
    cases ho
    split at hopen
    case h_1 q hq =>
      cases hopen
      obtain ⟨restored, storage, -, -, rfl⟩ := Process.openDb_eq hq
      rfl
    case h_2 => cases hopen
  case h_2 => cases ho

/-- **Bounded memory**: whatever happens, no more memtables are frozen than `MAX_FROZEN`, or than the logs
restored, and one for each commit that waits and each call of `DB::flush`. -/
theorem queue_le [∀ s e, Decidable (P s e)] {d : Dir} {es : List Event} (ho : opened d = some s)
    (h : exec P s es = some t) :
    t.proc.state.frozen.length ≤
      max maxFrozen s.proc.state.frozen.length + t.waiters + es.countP Event.isFlush := by
  have hun : s.proc.commit.unpaid = 0 := by rw [opened_commit ho]; rfl
  have hb : Bounded s.proc.state.frozen.length 0 s := ⟨by omega, hun.le⟩
  have hf := (hb.exec h).frozen
  omega

end bound

/-- A call of `DB::set` that fills the memtable, and then looks whether there is room. -/
def fillEvents (i : ℕ) (k v : Str) : List Event :=
  .call i (.set k v) ::
    ([Act.stamp, .append, .append, .put, .append, .record, .publish, .watermark, .prune, .createLog,
      .swap].map .task ++ [.await])

/-- Five memtables filled before the loop runs. -/
def fillsFive : List Event := (List.replicate 5 (fillEvents 0 keyK textOne)).flatten

/-- The last of five sets waits, and nothing is stuck. -/
def roomIffFive : Option (DB × DB) := do
  let s ← @opened crc32 Sys.init.dir
  let t ← @exec crc32 Undisturbed _ s fillsFive
  if true ∈ t.handles ∧ t.closed = false ∧ 0 < t.waiters ∧
      (@Process.stuck crc32 t.proc).length ≤ maxFrozen then return (s, t) else none

theorem room_iff_five : ∃ s t : DB, @opened crc32 Sys.init.dir = some s ∧
    @Runs crc32 Undisturbed s t ∧ 0 < t.waiters ∧ ∃ u, @Runs crc32 GoesOn t u ∧ u.waiters = 0 := by
  have h : roomIffFive.isSome := by decide +kernel
  obtain ⟨⟨s, t⟩, h⟩ := Option.isSome_iff_exists.mp h
  unfold roomIffFive at h
  simp only [bind, Option.bind_eq_some_iff] at h
  obtain ⟨_, ho, _, ht, he⟩ := h
  split_ifs at he with hx
  cases he
  obtain ⟨ha, hc, hw, hst⟩ := hx
  have hrun := @runs_of_exec crc32 _ _ _ _ _ ht
  exact ⟨s, t, ho, hrun, hw,
    (@room_iff crc32 s t Sys.init.dir (@Run.refl crc32 _ _) ho hrun ha hc hw).1.mpr (.inr hst)⟩

/-- Of five sets that fill the memtable one waits, and five memtables are frozen. -/
def frozenLeFive : Option (DB × DB) := do
  let s ← @opened crc32 Sys.init.dir
  let t ← @exec crc32 AnyEvent _ s fillsFive
  if t.proc.state.frozen.length = 5 ∧ t.waiters = 1 then return (s, t) else none

theorem queue_le_five : ∃ s t : DB, @opened crc32 Sys.init.dir = some s ∧
    @exec crc32 AnyEvent _ s fillsFive = some t ∧ t.proc.state.frozen.length = 5 ∧
      5 ≤ max maxFrozen s.proc.state.frozen.length + 1 + 0 := by
  have h : frozenLeFive.isSome := by decide +kernel
  obtain ⟨⟨s, t⟩, h⟩ := Option.isSome_iff_exists.mp h
  unfold frozenLeFive at h
  simp only [bind, Option.bind_eq_some_iff] at h
  obtain ⟨_, ho, _, ht, he⟩ := h
  split_ifs at he with hx
  cases he
  obtain ⟨hf, hw⟩ := hx
  have hcount : fillsFive.countP Event.isFlush = 0 := by decide
  have hle := @queue_le crc32 s t AnyEvent _ _ fillsFive ho ht
  rw [hf, hw, hcount] at hle
  exact ⟨s, t, ho, ht, hf, hle⟩

end DB

end LowDB
