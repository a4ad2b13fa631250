import LowDB.Engine.Step

/-! # First committer wins

The map of recent writes is pruned by the oldest timestamp in use, taken after publication and without
the lock that readers begin under.  `Conflicts` relates the map, the table of timestamps in use and
the live handles at every step of a commit: for each timestamp in use the map still has, for every
key written after it, a commit at least as new (`kept`), because a timestamp that comes into use is
that of the last publication.

The main result, `conflict_iff_published`, is that a commit is refused exactly if another one has
written one of its keys after its timestamp. -/

namespace LowDB

namespace CommitLock

/-- The timestamp taken by a commit that is not published yet. -/
def openTs : CommitLock → Option ℕ
  | stamped _ ts | begun _ ts | logged _ ts _ | sealed _ ts | recorded _ ts => some ts
  | _ => none

/-- Writes in the map of recent writes that are not published yet. -/
def recording : CommitLock → List (Str × ℕ)
  | recorded c ts => c.buffer.keys.map fun k => (k, ts)
  | _ => []

/-- The timestamp of a commit just published. -/
def publishedTs : CommitLock → Option ℕ
  | published _ ts => some ts
  | _ => none

/-- The watermark taken for pruning. -/
def mark : CommitLock → Option ℕ
  | watermarked _ _ w => some w
  | _ => none

end CommitLock

/-! ### The handles with a timestamp -/

def Reader.uses (r : Reader) (t : ℕ) : Bool := r.registered && r.readTs = t

/-- The number of handles that use the timestamp `t`. -/
def users (rs : List (Option Reader)) (t : ℕ) : ℕ := rs.countP fun o => o.any fun r => r.uses t

section users
variable {rs : List (Option Reader)} {i t : ℕ} {r : Reader} {o : Option Reader}

theorem users_set (h : rs[i]? = some (some r)) :
    users (rs.set i o) t =
      users rs t - (if r.uses t then 1 else 0) + if o.any fun r => r.uses t then 1 else 0 := by
  obtain ⟨hi, he⟩ := List.getElem?_eq_some_iff.mp h
  unfold users
  rw [List.countP_set hi, he]
  rfl

theorem users_pos (h : rs[i]? = some (some r)) (hr : r.registered) : 0 < users rs r.readTs :=
  List.countP_pos_iff.mpr ⟨some r, List.mem_of_getElem? h, by simp [Reader.uses, hr]⟩

/-- The change of a handle that is not one of its timestamp. -/
theorem users_set_le (h : rs[i]? = some (some r)) (ho : ∀ r' ∈ o, ∀ t, r'.uses t = r.uses t) :
    users (rs.set i o) t ≤ users rs t := by
  rw [users_set h]
  have hpos : r.uses t → 0 < users rs t := by
    intro hu
    obtain ⟨hr, ht⟩ := (Bool.and_eq_true _ _).mp hu
    exact of_decide_eq_true ht ▸ users_pos h hr
  cases o with
  | none => simp
  | some r' =>
      have he := ho r' rfl t
      simp only [Option.any_some, he]
      split_ifs with hu
      · have := hpos hu
        omega
      · omega

theorem users_append : users (rs ++ [some r]) t = users rs t + if r.uses t then 1 else 0 := by
  simp [users, List.countP_append, List.countP_cons]

theorem uses_miss (es : List Entry) (r : Reader) (t : ℕ) : (r.miss es).uses t = r.uses t := by
  unfold Reader.miss
  split <;> rfl

theorem users_map_miss (es : List Entry) :
    users (rs.map (Option.map (Reader.miss es))) t = users rs t := by
  unfold users
  rw [List.countP_map]
  apply List.countP_congr
  intro o _
  cases o with
  | none => rfl
  | some r => simp [uses_miss]

end users

/-! ### The invariant -/

/-- What holds between the oracle, the holder of the commit lock, the numbers `u` of users of the
timestamps and the published writes. -/
structure Conflicts (o : Oracle) (c : CommitLock) (u : ℕ → ℕ) (pub : List (Str × ℕ)) : Prop where
  recent : ∀ k ts, o.recent k = some ts → (k, ts) ∈ pub ∨ (k, ts) ∈ c.recording
  recorded : ∀ x ∈ c.recording, o.recent x.1 = some x.2
  kept : ∀ t, 0 < u t → ∀ x ∈ pub, t < x.2 → ∃ ts, o.recent x.1 = some ts ∧ x.2 ≤ ts
  marked : ∀ w ∈ c.mark, w ≤ o.visible ∧ ∀ t, 0 < u t → w ≤ t
  counted : ∀ t, u t ≤ o.active.count t
  below : o.active.Below o.visible
  pub_le : ∀ x ∈ pub, x.2 ≤ o.visible
  published : ∀ ts ∈ c.publishedTs, ts = o.visible
  openTs : ∀ ts ∈ c.openTs, o.visible < ts ∧ ts < o.nextSeq
  next : o.visible < o.nextSeq

namespace Conflicts

variable {o : Oracle} {c c' : CommitLock} {u u' : ℕ → ℕ} {pub : List (Str × ℕ)}

theorem new (maxSeq txId : ℕ) : Conflicts (.new maxSeq txId) .free (users []) [] where
  recent _ _ h := nomatch h
  recorded _ h := nomatch h
  kept _ _ _ h := nomatch h
  marked _ h := nomatch h
  counted _ := Nat.zero_le _
  below _ h := nomatch h
  pub_le _ h := nomatch h
  published _ h := nomatch h
  openTs _ h := nomatch h
  next := Nat.lt_succ_self _

/-- Handles may go, or change in other respects. -/
theorem mono (h : Conflicts o c u pub) (hu : ∀ t, u' t ≤ u t) : Conflicts o c u' pub where
  recent := h.recent
  recorded := h.recorded
  kept t ht := h.kept t (ht.trans_le (hu t))
  marked w hw := ⟨(h.marked w hw).1, fun t ht => (h.marked w hw).2 t (ht.trans_le (hu t))⟩
  counted t := (hu t).trans (h.counted t)
  below := h.below
  pub_le := h.pub_le
  published := h.published
  openTs := h.openTs
  next := h.next

/-- Steps of a commit that do not touch the oracle. -/
theorem lock (h : Conflicts o c u pub) (hr : c.recording = []) (hr' : c'.recording = [])
    (hm : c'.mark = none) (hp : c'.publishedTs = none) (ht : ∀ ts ∈ c'.openTs, ts ∈ c.openTs) :
    Conflicts o c' u pub where
  recent k ts hk := by
    have hk := h.recent k ts hk
    rw [hr] at hk
    rwa [hr']
  recorded := by simp [hr']
  kept := h.kept
  marked := by simp [hm]
  counted := h.counted
  below := h.below
  pub_le := h.pub_le
  published := by simp [hp]
  openTs ts hts := h.openTs ts (ht ts hts)
  next := h.next

/-- A lock that is given up in whatever state before publication. -/
theorem free (h : Conflicts o c u pub) (hr : c.recording = []) : Conflicts o .free u pub :=
  h.lock hr rfl rfl rfl fun _ h => nomatch h

theorem nextTxId (h : Conflicts o c u pub) : Conflicts o.nextTxId c u pub :=
  ⟨h.recent, h.recorded, h.kept, h.marked, h.counted, h.below, h.pub_le, h.published, h.openTs,
    h.next⟩

theorem stamp {cm : Commit} (h : Conflicts o (.checked cm) u pub) :
    Conflicts o.nextTs (.stamped cm o.nextSeq) u pub where
  recent := h.recent
  recorded _ hx := nomatch hx
  kept := h.kept
  marked _ hw := nomatch hw
  counted := h.counted
  below := h.below
  pub_le := h.pub_le
  published _ hp := nomatch hp
  openTs ts hts := by
    cases hts
    exact ⟨h.next, Nat.lt_succ_self _⟩
  next := h.next.trans (Nat.lt_succ_self _)

theorem record {cm : Commit} {ts : ℕ} (h : Conflicts o (.sealed cm ts) u pub) :
    Conflicts (o.record cm.buffer ts) (.recorded cm ts) u pub where
  recent k n hk := by
    unfold Oracle.record at hk
    by_cases hb : k ∈ cm.buffer.keys
    · simp only [if_pos hb, Option.some_inj] at hk
      exact .inr (hk ▸ List.mem_map_of_mem hb)
    · simp only [if_neg hb] at hk
      exact .inl ((h.recent k n hk).resolve_right fun h => nomatch h)
  recorded x hx := by
    obtain ⟨k, hk, rfl⟩ := List.mem_map.mp hx
    exact if_pos hk
  kept t ht x hx hlt := by
    unfold Oracle.record
    by_cases hb : x.1 ∈ cm.buffer.keys
    · -- the new timestamp is newer than all published ones
      have hts := (h.openTs ts rfl).1
      have hle := h.pub_le x hx
      exact ⟨ts, if_pos hb, by omega⟩
    · obtain ⟨n, hn, hle⟩ := h.kept t ht x hx hlt
      exact ⟨n, (if_neg hb).trans hn, hle⟩
  marked _ hw := nomatch hw
  counted := h.counted
  below := h.below
  pub_le := h.pub_le
  published _ hp := nomatch hp
  openTs := h.openTs
  next := h.next

theorem publish {cm : Commit} {ts : ℕ} (h : Conflicts o (.recorded cm ts) u pub) :
    Conflicts (o.publish ts) (.published cm ts) u (pub ++ cm.buffer.keys.map fun k => (k, ts)) where
  recent k n hk := .inl (List.mem_append.mpr (h.recent k n hk))
  recorded _ hx := nomatch hx
  kept t ht x hx hlt := by
    cases List.mem_append.mp hx with
    | inl hx => exact h.kept t ht x hx hlt
    | inr hx => exact ⟨x.2, h.recorded x hx, le_rfl⟩
  marked _ hw := nomatch hw
  counted := h.counted
  below := h.below.mono (h.openTs ts rfl).1.le
  pub_le x hx := by
    have hts := (h.openTs ts rfl).1
    cases List.mem_append.mp hx with
    | inl hx => exact (h.pub_le x hx).trans hts.le
    | inr hx =>
        obtain ⟨k, _, rfl⟩ := List.mem_map.mp hx
        exact le_rfl
  published n hn := by
    cases hn
    rfl
  openTs _ ht := nomatch ht
  next := (h.openTs ts rfl).2

/-- The watermark is at most every timestamp in use, now and later. -/
theorem watermark {cm : Commit} {ts : ℕ} (h : Conflicts o (.published cm ts) u pub) :
    Conflicts o (.watermarked cm ts (o.watermark ts)) u pub where
  recent := h.recent
  recorded _ hx := nomatch hx
  kept := h.kept
  marked w hw := by
    cases hw
    unfold Oracle.watermark
    constructor
    · cases hf : o.active.first with
      | none => exact (h.published ts rfl).le
      | some m => exact h.below.first hf
    · intro t ht
      obtain ⟨m, hm, hle⟩ := Active.first_le (ht.trans_le (h.counted t))
      rw [hm]
      exact hle
  counted := h.counted
  below := h.below
  pub_le := h.pub_le
  published _ hp := nomatch hp
  openTs _ ht := nomatch ht
  next := h.next

theorem prune {cm : Commit} {ts w : ℕ} (h : Conflicts o (.watermarked cm ts w) u pub) :
    Conflicts (o.prune w) (.pruned cm ts) u pub where
  recent k n hk := by
    obtain ⟨hk, _⟩ := Option.filter_eq_some_iff.mp hk
    exact h.recent k n hk
  recorded _ hx := nomatch hx
  kept t ht x hx hlt := by
    obtain ⟨n, hn, hle⟩ := h.kept t ht x hx hlt
    have hw := (h.marked w rfl).2 t ht
    exact ⟨n, Option.filter_eq_some_iff.mpr ⟨hn, by simp; omega⟩, hle⟩
  marked _ hm := nomatch hm
  counted := h.counted
  below := h.below
  pub_le := h.pub_le
  published _ hp := nomatch hp
  openTs _ ht := nomatch ht
  next := h.next

/-- A new handle uses the timestamp of the last publication, which nothing is newer than. -/
theorem begin (h : Conflicts o c u pub)
    (hu : ∀ t, u' t ≤ u t + if t = o.visible then 1 else 0) : Conflicts o.begin c u' pub where
  recent := h.recent
  recorded := h.recorded
  kept t ht x hx hlt := by
    by_cases hv : t = o.visible
    · exact absurd (h.pub_le x hx) (by omega)
    · have hu := hu t
      rw [if_neg hv] at hu
      exact h.kept t (by omega) x hx hlt
  marked w hw := by
    refine ⟨(h.marked w hw).1, ?_⟩
    intro t ht
    by_cases hv : t = o.visible
    · exact hv ▸ (h.marked w hw).1
    · have hu := hu t
      rw [if_neg hv] at hu
      exact (h.marked w hw).2 t (by omega)
  counted t := by
    unfold Oracle.begin
    have hc := h.counted t
    have hu := hu t
    rw [Active.count_incr]
    omega
  below := h.below.incr le_rfl
  pub_le := h.pub_le
  published := h.published
  openTs := h.openTs
  next := h.next

theorem finish {r : ℕ} (h : Conflicts o c u pub)
    (hu : ∀ t, u' t ≤ u t - if t = r then 1 else 0) : Conflicts (o.finish r) c u' pub where
  recent := h.recent
  recorded := h.recorded
  kept t ht := h.kept t (by have := hu t; omega)
  marked w hw := ⟨(h.marked w hw).1, fun t ht => (h.marked w hw).2 t (by have := hu t; omega)⟩
  counted t := by
    unfold Oracle.finish
    have hc := h.counted t
    have hu := hu t
    rw [Active.count_decr]
    omega
  below := h.below.decr
  pub_le := h.pub_le
  published := h.published
  openTs := h.openTs
  next := h.next

end Conflicts

/-! ### Every action keeps it -/

theorem Process.getElem?_of_reader {p : Process} {i : ℕ} {r : Reader} (h : p.reader i = some r) :
    p.readers[i]? = some (some r) := Option.join_eq_some_iff.mp h

/-- The invariant on a process. -/
def Process.Conflicts (p : Process) : Prop :=
  LowDB.Conflicts p.oracle p.commit (users p.readers) p.published

namespace Process

variable {d d' : Dir} {p p' : Process} {a : Act} {o : Out} {i : ℕ} {r : Reader}

/-- An append belongs to a commit whose writes are not recorded yet. -/
theorem recording_of_appendTs {ts : ℕ} (h : p.appendTs = some ts) : p.commit.recording = [] := by
  unfold appendTs at h
  split at h
  case h_1 c ts hc => rw [hc]; rfl
  case h_2 c ts hc => rw [hc]; rfl
  case h_3 c ts n hc => rw [hc]; rfl
  case h_4 => cases h

/-- A handle that changes in anything but its timestamp. -/
theorem Conflicts.setReader (h : p.Conflicts) (hr : p.reader i = some r) {ro : Option Reader}
    (ho : ∀ r' ∈ ro, ∀ t, r'.uses t = r.uses t) : (p.setReader i ro).Conflicts :=
  h.mono fun _ => users_set_le (getElem?_of_reader hr) ho

theorem Conflicts.setReader_some (h : p.Conflicts) (hr : p.reader i = some r) {r' : Reader}
    (ho : ∀ t, r'.uses t = r.uses t) : (p.setReader i (some r')).Conflicts :=
  h.setReader hr fun x hx t => by
    cases hx
    exact ho t

theorem uses_of_answered {r r' : Reader} (h : r' ∈ r.answered) : r' = r := by
  unfold Reader.answered at h
  split at h
  · cases h
  · exact (Option.some_inj.mp h).symm

theorem conflicts_step [Crc32] (h : p.Conflicts) (hs : Step d p a o d' p') : p'.Conflicts := by
  have hlock := fun c (hc : p.commit = c) =>
    @LowDB.Conflicts.lock p.oracle c p'.commit (users p.readers) p.published (hc ▸ h)
  cases hs with
  | set hc => exact (hlock _ hc rfl rfl rfl rfl fun _ h => nomatch h).nextTxId
  | commitEmpty hr => exact h.setReader_some hr fun _ => rfl
  | conflict hr => exact h.setReader_some hr fun _ => rfl
  | commit hr _ _ _ _ hc =>
      exact (hlock _ hc rfl rfl rfl rfl fun _ h => nomatch h).mono fun _ =>
        users_set_le (getElem?_of_reader hr) fun x hx t => by cases hx; rfl
  | stamp hc =>
      unfold Process.Conflicts at h
      rw [hc] at h
      exact h.stamp
  | appendBegin hc => exact hlock _ hc rfl rfl rfl rfl fun _ h => h
  | appendBatch hc => exact hlock _ hc rfl rfl rfl rfl fun _ h => h
  | refuse hc => exact hlock _ hc rfl rfl rfl rfl fun _ h => nomatch h
  | appendCommit hc => exact hlock _ hc rfl rfl rfl rfl fun _ h => h
  | appendFails ht => exact h.free (recording_of_appendTs ht)
  | put hc => exact hlock _ hc rfl rfl rfl rfl fun _ h => h
  | record hc =>
      unfold Process.Conflicts at h
      rw [hc] at h
      exact h.record
  | publish hc =>
      unfold Process.Conflicts at h
      rw [hc] at h
      exact h.publish
  | watermark hc =>
      unfold Process.Conflicts at h
      rw [hc] at h
      exact h.watermark
  | prune hc =>
      unfold Process.Conflicts at h
      rw [hc] at h
      exact h.prune
  | finish hc => exact hlock _ hc rfl rfl rfl rfl fun _ h => nomatch h
  | freezeEmpty => exact h
  | freeze hc => exact hlock _ hc rfl rfl rfl rfl fun _ h => nomatch h
  | @createLog o hc =>
      cases o with
      | none => exact hlock _ hc rfl rfl rfl rfl fun _ h => nomatch h
      | some c => exact hlock _ hc rfl rfl rfl rfl fun _ h => nomatch h
  | createLogFails hc => exact hlock _ hc rfl rfl rfl rfl fun _ h => nomatch h
  | freezeFails hc => exact hlock _ hc rfl rfl rfl rfl fun _ h => nomatch h
  | swap hc => exact hlock _ hc rfl rfl rfl rfl fun _ h => nomatch h
  | pick => exact h
  | writeTable => exact h
  | writeNothing => exact h
  | writeRefused => exact h
  | writeTableFails => exact h
  | install => exact h
  | retire => exact h.mono fun t => (users_map_miss _).le
  | removeLog => exact h
  | removeLogFails => exact h
  | snapshot =>
      apply h.begin
      intro t
      rw [users_append]
      simp [Reader.uses, Reader.registered, Reader.started, eq_comm]
  | transaction =>
      refine (h.begin fun t => ?_).nextTxId
      rw [users_append]
      simp [Reader.uses, Reader.registered, Reader.started, eq_comm]
  | get =>
      apply h.mono
      intro t
      rw [users_append]
      simp [Reader.uses, Reader.registered, Reader.started]
  | capture hr => exact h.setReader_some hr fun _ => rfl
  | write hr => exact h.setReader_some hr fun _ => rfl
  | searchBuffer => exact h
  | searchAbsent hr => exact h.setReader_some hr fun _ => rfl
  | searchMems hr => exact h.setReader hr fun x hx t => by rw [uses_of_answered hx]
  | searchTables hr =>
      apply h.setReader hr
      intro x hx t
      rw [uses_of_answered hx]
      rfl
  | @drop i r hr hg =>
      apply h.finish
      intro t
      have hu := users_set (t := t) (o := none) (getElem?_of_reader hr)
      simp only [Reader.uses, hg, Bool.true_and, eq_comm] at hu
      rw [setReader, hu]
      simp
  | cancel hr => exact h.setReader hr fun _ h => nomatch h

end Process

/-- The invariant holds in every run, whatever fails. -/
theorem Run.conflicts [Crc32] {P : Sys → Act → Prop} {s : Sys} (h : Reach P s) :
    s.Holds (fun _ => True) fun _ p => p.Conflicts := by
  refine h.holds (fun d p _ _ _ ho => ?_) (fun _ _ _ => trivial)
    (fun _ _ _ _ _ _ _ _ => Process.conflicts_step) trivial
  obtain ⟨restored, storage, _, _, rfl⟩ := Process.openDb_eq ho
  exact .new _ _

/-- **First committer wins**: in every run, the commit of a live transaction is refused exactly if a
commit published in this process has written one of its keys after its timestamp. -/
theorem conflict_iff_published [Crc32] {s s' : Sys} {p : Process} {i : ℕ} {r : Reader} {o : Out}
    (h : Reach Any s) (hp : s.proc = some p) (hr : p.reader i = some r)
    (hs : step s (.commit i) = some (s', o)) :
    o = .committed (.error .commitConflict) ↔
      ∃ k ∈ r.buffer.keys, ∃ ts, (k, ts) ∈ p.published ∧ r.readTs < ts := by
  have hinv := h.conflicts
  obtain ⟨d, _⟩ := s
  cases hp
  cases sysStep_of_eq hs with
  | step hst =>
      cases hst with
      | commitEmpty hr' hk hst hu hb =>
          cases hr.symm.trans hr'
          have hnil : r.buffer.keys = [] := by
            rw [Buffer.keys, List.isEmpty_iff.mp hb]
            rfl
          simp [hnil]
      | conflict hr' hk hst hu hb hc hx =>
          cases hr.symm.trans hr'
          obtain ⟨k, hk, ts, hts, hlt⟩ := Oracle.conflict_iff.mp hx
          have hpub := hinv.recent k ts hts
          rw [hc] at hpub
          exact iff_of_true rfl ⟨k, hk, ts, hpub.resolve_right (fun h => nomatch h), hlt⟩
      | commit hr' hk hst hu hb hc hx =>
          cases hr.symm.trans hr'
          have hreg : r.registered := by
            unfold Reader.registered
            rw [hk]
          apply iff_of_false (fun h => nomatch h)
          rintro ⟨k, hmem, ts, hpub, hlt⟩
          have hpos := users_pos (Process.getElem?_of_reader hr) hreg
          obtain ⟨n, hn, hle⟩ := hinv.kept _ hpos (k, ts) hpub hlt
          exact hx (Oracle.conflict_iff.mpr ⟨k, hmem, n, hn, hlt.trans_le hle⟩)

/-- A transaction that writes `k`, and a plain set of `k` before it commits. -/
def overtaken : List Act :=
  [.open, .transaction, .capture 0, .write 0 keyK (.set textOne)] ++ setActs keyK textTwo

def conflictIffPublishedOvertaken : Option (Sys × Process × Reader × Sys × Out) := do
  let s ← @exec crc32 Any _ .init overtaken
  let p ← s.proc
  let r ← p.reader 0
  let x ← @step crc32 s (.commit 0)
  return (s, p, r, x)

theorem conflict_iff_published_overtaken : ∃ s p r s' o,
    s.proc = some p ∧ p.reader 0 = some r ∧ @step crc32 s (.commit 0) = some (s', o) ∧
      (o = .committed (.error .commitConflict) ↔
        ∃ k ∈ r.buffer.keys, ∃ ts, (k, ts) ∈ p.published ∧ r.readTs < ts) := by
  have h : conflictIffPublishedOvertaken.isSome := by decide +kernel
  obtain ⟨⟨s, p, r, s', o⟩, h⟩ := Option.isSome_iff_exists.mp h
  unfold conflictIffPublishedOvertaken at h
  simp only [bind, Option.bind_eq_some_iff] at h
  obtain ⟨_, hs, _, hp, _, hr, _, hx, he⟩ := h
  cases he
  exact ⟨s, p, r, s', o, hp, hr, hx,
    @conflict_iff_published crc32 s s' p 0 r o (@reach_of_exec crc32 _ _ _ _ hs) hp hr hx⟩

end LowDB
