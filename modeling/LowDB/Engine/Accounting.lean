import LowDB.Engine.Reads

/-! # Timestamps in use

`begin` counts a timestamp before the handle that will call `end` exists: between the two the task
waits for the lock of the state, and a task that is dropped there never calls `end`.  `Accounting`
lists what an action does to the table of timestamps in use beside what it does to the handles
counted in it; the one case that upsets the balance is such a cancellation.

The main result, `active_accounted`, is that without one the table gives for each timestamp exactly
the number of its handles, and that a commit published while there is none leaves the map of recent
writes empty.  After one, the table stays wrong as long as the process goes on (`active_leaked`). -/

namespace LowDB

/-- The handles that are counted, finished or still being constructed. -/
def Process.Live (p : Process) (r : Reader) : Prop := some r ∈ p.readers ∧ r.registered

/-! ### Every action -/

section users
variable {rs : List (Option Reader)} {i t : ℕ} {r : Reader} {o : Option Reader}

/-- A handle put in the place of another with the same timestamp. -/
theorem users_set_eq (h : rs[i]? = some (some r))
    (ho : (o.any fun r' => r'.uses t) = r.uses t) : users (rs.set i o) t = users rs t := by
  rw [users_set h, ho]
  split_ifs with hu
  · obtain ⟨hr, ht⟩ := (Bool.and_eq_true _ _).mp hu
    have hpos := users_pos h hr
    rw [of_decide_eq_true ht] at hpos
    omega
  · rfl

theorem exists_of_users_pos (h : 0 < users rs t) :
    ∃ r, some r ∈ rs ∧ r.registered ∧ r.readTs = t := by
  obtain ⟨o, ho, hu⟩ := List.countP_pos_iff.mp h
  obtain ⟨r, rfl, hu⟩ := (Option.any_eq_true _ _).mp hu
  obtain ⟨hr, ht⟩ := (Bool.and_eq_true _ _).mp hu
  exact ⟨r, ho, hr, of_decide_eq_true ht⟩

theorem users_pos_of_mem (h : some r ∈ rs) (hr : r.registered) : 0 < users rs r.readTs := by
  obtain ⟨i, hi⟩ := List.mem_iff_getElem?.mp h
  exact users_pos hi hr

/-- The end of a call of `DB::get` is no change for the handles. -/
theorem any_uses_answered : (r.answered.any fun r' => r'.uses t) = r.uses t := by
  unfold Reader.answered
  split
  case h_1 k hk => simp [Reader.uses, Reader.registered, hk]
  case h_2 => rfl

end users

/-- What an action does to the table of timestamps in use, and to the handles counted in it. -/
inductive Accounting (p : Process) : Act → Process → Prop
  | same {a : Act} {p' : Process} (ha : p'.oracle.active = p.oracle.active)
      (hu : ∀ t, users p'.readers t = users p.readers t) : Accounting p a p'
  | begins {a : Act} {p' : Process} (hb : a = .snapshot ∨ a = .transaction)
      (ha : p'.oracle.active = p.oracle.active.incr p.oracle.visible)
      (hu : ∀ t, users p'.readers t = users p.readers t + if t = p.oracle.visible then 1 else 0) :
      Accounting p a p'
  | ends {a : Act} {p' : Process} {r : Reader} (hr : p.Live r)
      (ha : p'.oracle.active = p.oracle.active.decr r.readTs)
      (hu : ∀ t, users p'.readers t = users p.readers t - if t = r.readTs then 1 else 0) :
      Accounting p a p'
  | abandons {i : ℕ} {r : Reader} {p' : Process} (hr : p.reader i = some r) (hg : r.registered)
      (ha : p'.oracle.active = p.oracle.active)
      (hu : ∀ t, users p'.readers t = users p.readers t - if t = r.readTs then 1 else 0) :
      Accounting p (.cancel i) p'

namespace Process

variable {d d' : Dir} {p p' : Process} {a : Act} {o : Out} {i t : ℕ} {r r' : Reader}

theorem users_setReader (hr : p.reader i = some r) (hu : ∀ t, r'.uses t = r.uses t) :
    users (p.setReader i (some r')).readers t = users p.readers t :=
  users_set_eq (getElem?_of_reader hr) (hu t)

/-- A handle that goes. -/
theorem users_setReader_none (hr : p.reader i = some r) (hg : r.registered) :
    users (p.setReader i none).readers t = users p.readers t - if t = r.readTs then 1 else 0 := by
  have hu := users_set (t := t) (o := none) (getElem?_of_reader hr)
  simpa [Reader.uses, hg, eq_comm, setReader] using hu

theorem users_eq_zero (h : ∀ r, ¬ p.Live r) (n : ℕ) : users p.readers n = 0 := by
  by_contra hne
  obtain ⟨r, hr, hg, _⟩ := exists_of_users_pos (Nat.pos_of_ne_zero hne)
  exact h r ⟨hr, hg⟩

/-- Nothing is left of the handles. -/
theorem not_live (h : p.readers.all Option.isNone) : ¬ p.Live r := by
  rintro ⟨hr, _⟩
  exact absurd (List.all_eq_true.mp h _ hr) Bool.false_ne_true

theorem accounting_step [Crc32] (hs : Step d p a o d' p') : Accounting p a p' := by
  cases hs with
  | commitEmpty hr => exact .same rfl fun _ => users_setReader hr fun _ => rfl
  | conflict hr => exact .same rfl fun _ => users_setReader hr fun _ => rfl
  | commit hr => exact .same rfl fun _ => users_setReader hr fun _ => rfl
  | capture hr => exact .same rfl fun _ => users_setReader hr fun _ => rfl
  | write hr => exact .same rfl fun _ => users_setReader hr fun _ => rfl
  | searchAbsent hr => exact .same rfl fun _ => users_setReader hr fun _ => rfl
  | searchMems hr =>
      exact .same rfl fun _ => users_set_eq (getElem?_of_reader hr) any_uses_answered
  | searchTables hr =>
      exact .same rfl fun _ => users_set_eq (getElem?_of_reader hr) any_uses_answered
  | retire => exact .same rfl fun _ => users_map_miss _
  | snapshot =>
      refine .begins (.inl rfl) rfl ?_
      intro t
      rw [users_append]
      simp [Reader.uses, Reader.registered, Reader.started, eq_comm]
  | transaction =>
      refine .begins (.inr rfl) rfl ?_
      intro t
      rw [users_append]
      simp [Reader.uses, Reader.registered, Reader.started, eq_comm]
  | get =>
      refine .same rfl ?_
      intro t
      rw [users_append]
      simp [Reader.uses, Reader.registered, Reader.started]
  | drop hr hg =>
      have hm := List.mem_of_getElem? (getElem?_of_reader hr)
      exact .ends ⟨hm, hg⟩ rfl fun _ => users_setReader_none hr hg
  | @cancel i r hr hs =>
      cases hg : r.registered with
      | true => exact .abandons hr hg rfl fun _ => users_setReader_none hr hg
      | false =>
          refine .same rfl fun t => users_set_eq (getElem?_of_reader hr) ?_
          simp [Reader.uses, hg]
  | _ => exact .same rfl fun _ => rfl

end Process

/-! ### The balance -/

/-- The table gives for each timestamp in use the number of its handles, and nothing else. -/
structure Balanced (p : Process) : Prop where
  counted : ∀ t, p.oracle.active.count t = users p.readers t
  positive : p.oracle.active.Positive

/-- The action drops a call that has begun to create a handle. -/
def abandons (s : Sys) : Act → Bool
  | .cancel i => ((s.proc.bind fun p => p.reader i).map Reader.registered).getD false
  | _ => false

/-- No call that creates a handle is dropped. -/
def Constructs (s : Sys) (a : Act) : Prop := abandons s a = false

instance (s : Sys) (a : Act) : Decidable (Constructs s a) := inferInstanceAs (Decidable (_ = _))

theorem abandons_cancel {d : Dir} {p : Process} {i : ℕ} {r : Reader} (hr : p.reader i = some r) :
    abandons ⟨d, some p⟩ (.cancel i) = r.registered := by
  simp [abandons, hr]

namespace Balanced

variable {p p' : Process}

theorem same (h : Balanced p) (ha : p'.oracle.active = p.oracle.active)
    (hu : ∀ t, users p'.readers t = users p.readers t) : Balanced p' where
  counted t := by rw [ha, hu, h.counted]
  positive := ha ▸ h.positive

theorem step {d : Dir} {a : Act} (h : Balanced p) (hc : Constructs ⟨d, some p⟩ a)
    (hs : Accounting p a p') : Balanced p' := by
  cases hs with
  | same ha hu => exact h.same ha hu
  | begins _ ha hu =>
      refine ⟨fun t => ?_, ha ▸ h.positive.incr⟩
      rw [ha, hu, Active.count_incr, h.counted]
  | ends _ ha hu =>
      refine ⟨fun t => ?_, ha ▸ h.positive.decr⟩
      rw [ha, hu, Active.count_decr, h.counted]
  | abandons hr hg => exact absurd ((abandons_cancel hr).symm.trans hc) (by simp [hg])

theorem of_openDb [Crc32] {wal : List LogFile} {ss : List TableFile}
    (h : Process.openDb wal ss = .ok p) : Balanced p := by
  obtain ⟨restored, storage, _, _, rfl⟩ := Process.openDb_eq h
  exact ⟨fun _ => rfl, fun _ hx => nomatch hx⟩

theorem count_pos {r : Reader} (h : Balanced p) (hr : p.Live r) :
    0 < p.oracle.active.count r.readTs := by
  rw [h.counted]
  exact users_pos_of_mem hr.1 hr.2

theorem exists_of_count_pos {t : ℕ} (h : Balanced p) (ht : 0 < p.oracle.active.count t) :
    ∃ r, p.Live r ∧ r.readTs = t := by
  rw [h.counted] at ht
  obtain ⟨r, hr, hg, he⟩ := exists_of_users_pos ht
  exact ⟨r, ⟨hr, hg⟩, he⟩

/-- The least timestamp in the table is the oldest one of a handle. -/
theorem first_iff {m : ℕ} (h : Balanced p) : p.oracle.active.first = some m ↔
    (∃ r, p.Live r ∧ r.readTs = m) ∧ ∀ r, p.Live r → m ≤ r.readTs := by
  constructor
  · intro hm
    refine ⟨h.exists_of_count_pos (h.positive.count_first hm), ?_⟩
    intro r hr
    obtain ⟨m', hm', hle⟩ := Active.first_le (h.count_pos hr)
    cases hm.symm.trans hm'
    exact hle
  · rintro ⟨⟨r, hr, rfl⟩, hle⟩
    obtain ⟨m, hm, hmr⟩ := Active.first_le (h.count_pos hr)
    obtain ⟨r', hr', rfl⟩ := h.exists_of_count_pos (h.positive.count_first hm)
    rw [hm, hmr.antisymm (hle r' hr')]

theorem counts_eq_nil (h : Balanced p) (hn : ∀ r, ¬ p.Live r) : p.oracle.active.counts = [] := by
  apply List.eq_nil_iff_forall_not_mem.mpr
  rintro ⟨t, n⟩ hx
  obtain ⟨rfl, hpos⟩ := h.positive.mem_iff.mp hx
  obtain ⟨r, hr, _⟩ := h.exists_of_count_pos hpos
  exact hn r hr

end Balanced

/-- A timestamp is counted more often than it has handles. -/
def Leaks (p : Process) : Prop := ∃ t, users p.readers t < p.oracle.active.count t

/-- Nothing takes the surplus away. -/
theorem Leaks.step {p p' : Process} {a : Act} (h : Leaks p) (hs : Accounting p a p') : Leaks p' := by
  obtain ⟨t, ht⟩ := h
  refine ⟨t, ?_⟩
  cases hs with
  | same ha hu => rwa [ha, hu]
  | begins _ ha hu =>
      rw [ha, hu, Active.count_incr]
      omega
  | ends hr ha hu =>
      rw [ha, hu, Active.count_decr]
      split_ifs with he
      · have hpos := users_pos_of_mem hr.1 hr.2
        rw [← he] at hpos
        omega
      · exact ht
  | abandons _ _ ha hu =>
      rw [ha, hu]
      omega

/-! ### The map of recent writes -/

/-- What holds once `ts` is published while there is no handle: all later ones are at least as new. -/
structure Emptying (ts : ℕ) (p : Process) : Prop where
  visible : ts ≤ p.oracle.visible
  newer : ∀ t < ts, users p.readers t = 0
  marked : ∀ c n w, p.commit = .watermarked c n w → n = p.oracle.visible ∧ ts ≤ w
  pruned : ∀ c, p.commit = .pruned c ts → ∀ k, p.oracle.recent k = none

namespace Emptying

variable {ts : ℕ} {d d' : Dir} {p p' : Process} {a : Act} {o : Out}

theorem newer_step (h : Emptying ts p) (hs : Accounting p a p') :
    ∀ t < ts, users p'.readers t = 0 := by
  intro t ht
  have hz := h.newer t ht
  cases hs with
  | same _ hu => rw [hu, hz]
  | begins _ _ hu =>
      have hv := h.visible
      rw [hu, hz, if_neg (by omega)]
  | ends _ _ hu => rw [hu, hz, Nat.zero_sub]
  | abandons _ _ _ hu => rw [hu, hz, Nat.zero_sub]

/-- No watermark is taken below `ts`. -/
theorem le_watermark {n : ℕ} (h : Emptying ts p) (hb : Balanced p) (hn : ts ≤ n) :
    ts ≤ p.oracle.watermark n := by
  unfold Oracle.watermark
  cases hf : p.oracle.active.first with
  | none => exact hn
  | some m =>
      have hm := hb.positive.count_first hf
      rw [hb.counted] at hm
      by_contra hlt
      exact hm.ne' (h.newer m (not_le.mp hlt))

theorem step [Crc32] (h : Emptying ts p) (hb : Balanced p) (hc : p.Conflicts)
    (hs : Step d p a o d' p') : Emptying ts p' := by
  have hnew := h.newer_step (Process.accounting_step hs)
  cases hs with
  | @publish c n hcm =>
      have hn := (hc.openTs n (by rw [hcm]; rfl)).1
      exact ⟨h.visible.trans hn.le, hnew, (fun _ _ _ h => nomatch h), fun _ h => nomatch h⟩
  | @watermark c n hcm =>
      have hn := hc.published n (by rw [hcm]; rfl)
      refine ⟨h.visible, hnew, fun c' n' w hw => ?_, fun _ h => nomatch h⟩
      cases hw
      exact ⟨hn, h.le_watermark hb (hn ▸ h.visible)⟩
  | @prune c n w hcm =>
      obtain ⟨hn, hw⟩ := h.marked c n w hcm
      refine ⟨h.visible, hnew, (fun _ _ _ h => nomatch h), ?_⟩
      intro c' hc' k
      cases hc'
      -- every entry is published, so not newer than the last publication
      apply Option.filter_eq_none_iff.mpr
      intro m hm
      have hpub := (hc.recent k m hm).resolve_right (by rw [hcm]; exact List.not_mem_nil)
      have hle := hc.pub_le _ hpub
      simp only [decide_eq_true_eq, not_lt]
      omega
  | set | commit | stamp | appendBegin | appendBatch | refuse | appendCommit | appendFails | put
  | record | finish | freeze | createLog | createLogFails | freezeFails | swap =>
      exact ⟨h.visible, hnew, (fun _ _ _ h => nomatch h), fun _ h => nomatch h⟩
  | _ => exact ⟨h.visible, hnew, h.marked, h.pruned⟩

end Emptying

/-! ### Runs -/

/-- The table of timestamps in use, as the handles have it. -/
structure Accounted (p : Process) : Prop where
  entries : ∀ t n, (t, n) ∈ p.oracle.active.counts ↔ n = users p.readers t ∧ 0 < n
  /-- what `end` counts down is not 0 -/
  ends : ∀ r, p.Live r → 0 < p.oracle.active.count r.readTs
  oldest : ∀ m, p.oracle.active.first = some m ↔
    (∃ r, p.Live r ∧ r.readTs = m) ∧ ∀ r, p.Live r → m ≤ r.readTs
  empty : (∀ r, ¬ p.Live r) → p.oracle.active.counts = []

theorem Balanced.accounted {p : Process} (h : Balanced p) : Accounted p where
  entries t n := by rw [h.positive.mem_iff, h.counted]
  ends _ := h.count_pos
  oldest _ := h.first_iff
  empty := h.counts_eq_nil

theorem Leaks.not_accounted {p : Process} (h : Leaks p) : ¬ Accounted p := by
  rintro ⟨hentries, _⟩
  obtain ⟨t, ht⟩ := h
  obtain ⟨he, _⟩ := (hentries t _).mp (Active.mem_of_countIn_pos (Nat.zero_lt_of_lt ht))
  exact ht.ne' he

/-- Begins a handle. -/
def Act.begins : Act → Bool
  | snapshot | transaction => true
  | _ => false

/-- Nothing begins a handle, and no call that has begun to create one is dropped. -/
def Unread (s : Sys) (a : Act) : Prop := Alive Constructs s a ∧ a.begins = false

instance (s : Sys) (a : Act) : Decidable (Unread s a) := inferInstanceAs (Decidable (_ ∧ _))

section runs
variable [Crc32] {s t u v : Sys} {p q q' : Process} {o : Out} {c : Commit} {ts : ℕ}

theorem Run.balanced (h : Reach Constructs s) : s.Holds (fun _ => True) fun _ p => Balanced p :=
  h.holds (fun _ _ _ _ _ ho => .of_openDb ho) (fun _ _ _ => trivial)
    (fun _ _ _ _ _ _ _ hc hb hs => hb.step hc (Process.accounting_step hs)) trivial

/-- Without handles to begin with there are none until one is begun. -/
theorem Run.unread (h : Run Unread s t) (hp : s.proc = some p) (hn : ∀ n, users p.readers n = 0) :
    ∃ q, t.proc = some q ∧ ∀ n, users q.readers n = 0 := by
  refine h.along (I := fun _ q => ∀ n, users q.readers n = 0) (fun _ _ ha => ha.1.2)
    (fun d q a o d' q' _ ha hz hs n => ?_) hp hn
  cases Process.accounting_step hs with
  | same _ hu => rw [hu, hz]
  | begins hb =>
      obtain rfl | rfl := hb
      · exact absurd ha.2.symm Bool.false_ne_true
      · exact absurd ha.2.symm Bool.false_ne_true
  | ends _ _ hu => rw [hu, hz, Nat.zero_sub]
  | abandons _ _ _ hu => rw [hu, hz, Nat.zero_sub]

/-- A commit published while there is no handle leaves no recent write. -/
theorem Run.recent_eq_none (hs : Reach Constructs u) (hp : u.proc = some p)
    (hn : ∀ n, users p.readers n = 0) (hc : p.commit = .published c ts)
    (h : Run (Alive Constructs) u v) (hq : v.proc = some q) (hc' : q.commit = .pruned c ts) :
    ∀ k, q.oracle.recent k = none := by
  have hinv : ∀ {d p}, Reach Constructs ⟨d, some p⟩ → Balanced p ∧ p.Conflicts := fun h =>
    ⟨h.balanced, (h.mono fun _ _ _ => trivial).conflicts⟩
  obtain ⟨d, _⟩ := u
  cases hp
  have hts := (hinv hs).2.published ts (by rw [hc]; rfl)
  obtain ⟨q', hq', he⟩ := h.along (I := fun _ q => Emptying ts q) (fun _ _ ha => ha.2)
    (fun d q a o d' q' hr _ he hst => by
      obtain ⟨hb, hcf⟩ := hinv (hs.trans (hr.mono fun _ _ h => h.1))
      exact he.step hb hcf hst) rfl
    ⟨hts.le, fun n _ => hn n, (fun _ _ _ h => nomatch hc.symm.trans h),
      fun _ h => nomatch hc.symm.trans h⟩
  cases hq.symm.trans hq'
  exact he.pruned c hc'

/-- **Timestamps are accounted for**: as long as no call that has begun to create a handle is dropped,
the table gives for each timestamp exactly the number of its handles, also of those still being
constructed.  Once there is no handle, the next commit that is published empties the map of recent
writes. -/
theorem active_accounted (h : Reach Constructs s) (hp : s.proc = some p) :
    Accounted p ∧ ((∀ r, ¬ p.Live r) → ∀ t u v q q' o c ts,
      Run Unread s t → step t .publish = some (u, o) → u.proc = some q → q.commit = .published c ts →
      Run (Alive Constructs) u v → v.proc = some q' → q'.commit = .pruned c ts →
      ∀ k, q'.oracle.recent k = none) := by
  have hb := h.balanced
  obtain ⟨d, _⟩ := s
  cases hp
  refine ⟨Balanced.accounted hb, ?_⟩
  intro hn t u v q q' o c ts ht hst hq hc hv hq' hc'
  obtain ⟨q₀, hq₀, hz⟩ := ht.unread rfl (Process.users_eq_zero hn)
  have hreach := h.trans (ht.mono fun _ _ h => h.1.1)
  refine Run.recent_eq_none (hreach.tail (a := .publish) rfl hst) hq ?_ hc hv hq' hc'
  obtain ⟨d, _⟩ := t
  cases hq₀
  cases sysStep_of_eq hst with
  | step hstep =>
      cases hstep
      cases hq
      exact hz

/-- Once a call that has begun to create a handle is dropped, the table is wrong for as long as the
process goes on. -/
theorem active_leaked {i : ℕ} {r : Reader} (h : Reach Any s) (hp : s.proc = some p)
    (hr : p.reader i = some r) (hg : r.registered) (hst : step s (.cancel i) = some (t, o))
    (ht : Run (Alive Any) t u) (hq : u.proc = some q) : ¬ Accounted q := by
  have hcf := h.conflicts
  obtain ⟨d, _⟩ := s
  cases hp
  cases sysStep_of_eq hst with
  | @step _ d' _ p' _ _ hstep =>
      have hleak : Leaks p' := by
        cases hstep with
        | cancel hr' =>
            cases hr.symm.trans hr'
            have hpos := users_pos (Process.getElem?_of_reader hr) hg
            refine ⟨r.readTs, lt_of_lt_of_le ?_ (hcf.counted r.readTs)⟩
            rw [Process.users_setReader_none hr hg, if_pos rfl]
            omega
      obtain ⟨q', hq', hl⟩ := ht.along (I := fun _ q => Leaks q) (fun _ _ ha => ha.2)
        (fun _ _ _ _ _ _ _ _ hl hs => hl.step (Process.accounting_step hs)) rfl hleak
      cases hq.symm.trans hq'
      exact hl.not_accounted

end runs

deriving instance DecidableEq for Buffer, Commit

/-- The same commit, published and later pruned for. -/
def CommitLock.prunes : CommitLock → CommitLock → Bool
  | published c ts, pruned c' ts' => c = c' && ts = ts'
  | _, _ => false

theorem CommitLock.exists_of_prunes {l l' : CommitLock} (h : l.prunes l') :
    ∃ c ts, l = .published c ts ∧ l' = .pruned c ts := by
  unfold prunes at h
  split at h
  case h_1 c ts c' ts' =>
    rw [Bool.and_eq_true, decide_eq_true_eq, decide_eq_true_eq] at h
    obtain ⟨rfl, rfl⟩ := h
    exact ⟨c, ts, rfl, rfl⟩
  case h_2 => cases h

/-- Two handles with one timestamp are dropped, one of them after a conflict; then a plain set. -/
def activeAccountedTwo : Option (Sys × Process × Sys × Sys × Out × Process × Sys × Process) := do
  let s ← @exec crc32 Constructs _ .init
    ([Act.open, .snapshot, .transaction, .capture 1, .capture 0] ++ setActs keyK textOne ++
      [Act.drop 0, .write 1 keyK (.set textTwo), .commit 1, .drop 1])
  let p ← s.proc
  let t ← @exec crc32 Unread _ s
    [Act.set keyK textOne, .stamp, .append, .append, .put, .append, .record]
  let (u, o) ← @step crc32 t .publish
  let q ← u.proc
  let v ← @exec crc32 (Alive Constructs) _ u [Act.watermark, .prune]
  let q' ← v.proc
  if p.readers.length = 2 ∧ p.readers.all Option.isNone ∧ p.oracle.recent keyK ≠ none ∧
    q.commit.prunes q'.commit then return (s, p, t, u, o, q, v, q') else none

theorem active_accounted_two : ∃ (s t u v : Sys) (p q : Process) (o : Out),
    @Reach crc32 Constructs s ∧ s.proc = some p ∧ p.readers.length = 2 ∧ (∀ r, ¬ p.Live r) ∧
      p.oracle.recent keyK ≠ none ∧ Accounted p ∧ @Run crc32 Unread s t ∧
      @step crc32 t .publish = some (u, o) ∧ @Run crc32 (Alive Constructs) u v ∧
      v.proc = some q ∧ ∀ k, q.oracle.recent k = none := by
  have h : activeAccountedTwo.isSome := by decide +kernel
  obtain ⟨⟨s, p, t, u, o, q, v, q'⟩, h⟩ := Option.isSome_iff_exists.mp h
  unfold activeAccountedTwo at h
  simp only [bind, Option.bind_eq_some_iff] at h
  obtain ⟨_, hs, _, hp, _, ht, ⟨_, _⟩, hu, _, hq, _, hv, _, hq', he⟩ := h
  split_ifs at he with hx
  cases he
  obtain ⟨hlen, hnone, hrec, hpr⟩ := hx
  obtain ⟨c, ts, hc, hc'⟩ := CommitLock.exists_of_prunes hpr
  have hreach := @reach_of_exec crc32 _ _ _ _ hs
  have htrun := @run_of_exec crc32 _ _ _ _ _ _ (@Run.refl crc32 _ s) ht
  have hvrun := @run_of_exec crc32 _ _ _ _ _ _ (@Run.refl crc32 _ _) hv
  obtain ⟨hacc, hempty⟩ := @active_accounted crc32 s p hreach hp
  have hlive := fun r => @Process.not_live p r hnone
  exact ⟨s, t, _, v, p, q', _, hreach, hp, hlen, hlive, hrec, hacc, htrun, hu, hvrun, hq',
    hempty hlive t _ v q q' _ c ts htrun hu hq hc hvrun hq' hc'⟩

/-- A call of `DB::snapshot` is dropped before it has captured the state; then a plain set. -/
def leaked : List Act := [.open, .snapshot, .cancel 0] ++ setActs keyK textOne

def activeAccountedLeak : Option (Sys × Process) := do
  let s ← @exec crc32 Any _ .init leaked
  let p ← s.proc
  if p.readers.all Option.isNone ∧ p.oracle.active.counts = [(1, 1)] ∧
    p.oracle.recent keyK = some 2 then return (s, p) else none

/-- Without the condition the table keeps the timestamp of a handle that never comes to be, and the map
of recent writes is no longer emptied. -/
theorem active_accounted_leak : ∃ (s : Sys) (p : Process), @Reach crc32 Any s ∧
    s.proc = some p ∧ (∀ r, ¬ p.Live r) ∧ p.oracle.active.counts = [(1, 1)] ∧ ¬ Accounted p ∧
      p.oracle.recent keyK = some 2 := by
  have h : activeAccountedLeak.isSome := by decide +kernel
  obtain ⟨⟨s, p⟩, h⟩ := Option.isSome_iff_exists.mp h
  unfold activeAccountedLeak at h
  simp only [bind, Option.bind_eq_some_iff] at h
  obtain ⟨_, hs, _, hp, he⟩ := h
  split_ifs at he with hx
  cases he
  obtain ⟨hnone, hcounts, hrec⟩ := hx
  have hlive := fun r => @Process.not_live p r hnone
  refine ⟨s, p, @reach_of_exec crc32 _ _ _ _ hs, hp, hlive, hcounts, fun ha => ?_, hrec⟩
  rw [ha.empty hlive] at hcounts
  cases hcounts

end LowDB
