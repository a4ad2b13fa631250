import LowDB.Engine.Step
import LowDB.Storage.Logs

/-! # The engine on named logs

The engine's directory has logs by id.  Every run of it is a run of `Wal` on a directory of named
files: each action does to the named files what it does to the logs, and opening replays the same logs
in the same order (`named_run`). -/

namespace LowDB

namespace WalWriter

/-! ### Writers only append -/

/-- Whatever the outcome, the file has become longer. -/
def Grows {α : Type} (m : Write α) : Prop := ∀ w, ∃ out, (m.run.run w).2.file = w.file ++ out

theorem grows_bind {α β : Type} {m : Write α} {f : α → Write β} (hm : Grows m)
    (hf : ∀ a, Grows (f a)) : Grows (m >>= f) := by
  intro w
  obtain ⟨out, h⟩ := hm w
  simp only [ExceptT.run_bind, StateT.run_bind]
  cases hr : m.run.run w with
  | mk r w' =>
      rw [hr] at h
      cases r with
      | error e => exact ⟨out, h⟩
      | ok a =>
          obtain ⟨out', h'⟩ := hf a w'
          exact ⟨out ++ out', h'.trans (by rw [← List.append_assoc, ← h])⟩

theorem grows_flushBuf (w : BufWriter) : ∃ out, w.flushBuf.file = w.file ++ out := ⟨w.buf, rfl⟩

theorem grows_flush : Grows flush := grows_flushBuf

theorem grows_writeAll (data : Bytes) : Grows (writeAll data) := by
  intro w
  have hfile : ∃ out, (w.writeAll data).file = w.file ++ out := by
    unfold BufWriter.writeAll
    split_ifs
    · exact ⟨w.buf ++ data, (List.append_assoc _ _ _)⟩
    · exact ⟨w.buf, rfl⟩
    · exact ⟨data, rfl⟩
    · exact ⟨[], (List.append_nil _).symm⟩
  exact hfile

theorem grows_lenU16 {n : ℕ} : Grows (lenU16 n) := by
  intro w
  refine ⟨[], ?_⟩
  rw [List.append_nil]
  rfl

theorem grows_appendValue (v : Value) : Grows (appendValue v) := by
  cases v with
  | set s => exact grows_bind grows_lenU16 fun _ => grows_bind (grows_writeAll _) fun _ => grows_writeAll _
  | delete => exact grows_writeAll _

theorem grows_appendKeyValue (k : Key) (v : Value) : Grows (appendKeyValue k v) :=
  grows_bind grows_lenU16 fun _ => grows_bind (grows_writeAll _) fun _ =>
    grows_bind (grows_writeAll _) fun _ => grows_bind (grows_writeAll _) fun _ => grows_appendValue v

theorem grows_appendEntries (es : List Entry) : Grows (appendEntries es) := by
  induction es with
  | nil => exact fun w => ⟨[], (List.append_nil _).symm⟩
  | cons e es ih => exact grows_bind (grows_appendKeyValue _ _) fun _ => ih

theorem grows_append (c : WalCmd) : Grows (append c) := by
  cases c with
  | txBegin tx =>
      refine grows_bind ?_ fun _ => grows_flush
      exact grows_bind (grows_writeAll _) fun _ => grows_writeAll _
  | txCommit tx =>
      refine grows_bind ?_ fun _ => grows_flush
      exact grows_bind (grows_writeAll _) fun _ => grows_writeAll _
  | op tx k v =>
      refine grows_bind ?_ fun _ => grows_flush
      exact grows_bind (grows_writeAll _) fun _ => grows_bind (grows_writeAll _) fun _ =>
        grows_appendKeyValue k v
  | batch tx b =>
      refine grows_bind ?_ fun _ => grows_flush
      exact grows_bind grows_lenU16 fun _ => grows_bind (grows_writeAll _) fun _ =>
        grows_bind (grows_writeAll _) fun _ => grows_bind (grows_writeAll _) fun _ =>
          grows_appendEntries b

theorem Call.file_run (c : Call) (w : BufWriter) : ∃ out, (c.run w).2.file = w.file ++ out := by
  rw [Call.run, Call.code_eq]
  exact grows_append c.cmd w

end WalWriter

/-! ### Actions -/

/-- The logs of a directory by id. -/
def Dir.logFiles (d : Dir) : List LogFile := d.wal.map Log.file

theorem map_logFiles (d : Dir) : d.logFiles.map Prod.fst = d.wal.map Log.id := List.map_map

section steps
variable {d d' : Dir} {p p' : Process} {a : Act} {o : Out}

/-- To write behind the bytes of the log with an id. -/
theorem logFiles_alterLog (hd : (d.logFiles.map Prod.fst).Nodup) {id : ℕ} {f : Log → Log} {bytes : Bytes}
    (hf : ∀ l, (f l).file = (l.id, d.logBytes id ++ bytes)) :
    (d.alterLog id f).logFiles =
      d.logFiles.map fun l => if l.1 = id then (l.1, l.2 ++ bytes) else l := by
  rw [map_logFiles] at hd
  unfold Dir.alterLog Dir.logFiles
  rw [List.map_map, List.map_map]
  apply List.map_congr_left
  intro l hl
  show (if l.id = id then f l else l).file = if l.id = id then (l.id, l.bytes ++ bytes) else l.file
  by_cases h : l.id = id
  · have hbytes : d.logBytes id = l.bytes := by
      obtain ⟨l', hfind⟩ : ∃ l', d.wal.find? (fun l => l.id = id) = some l' :=
        Option.isSome_iff_exists.mp (List.find?_isSome.mpr ⟨l, hl, by simp [h]⟩)
      have hid : l'.id = id := by simpa using List.find?_some hfind
      have heq := List.inj_on_of_nodup_map hd (List.mem_of_find?_eq_some hfind) hl (hid.trans h.symm)
      rw [Dir.logBytes, hfind, ← heq]
      rfl
    rw [if_pos h, if_pos h, hf, hbytes]
  · rw [if_neg h, if_neg h]

theorem logFiles_appendCall {ts : ℕ} {call : WalWriter.Call} {commit : CommitLock} {f : Log → Log}
    {vs : List Version} (hd : (d.logFiles.map Prod.fst).Nodup)
    (h : p.appendCall d ts call commit f vs = some (d', p', o)) (hf : ∀ l, (f l).file = l.file) :
    p'.nextWal = p.nextWal ∧ ∃ bytes, d'.logFiles =
      d.logFiles.map fun l => if l.1 = p.state.memTable then (l.1, l.2 ++ bytes) else l := by
  obtain ⟨bytes, hb⟩ := call.file_run (p.writer d)
  unfold Process.appendCall at h
  cases hr : call.run (p.writer d) with
  | mk r w =>
      rw [hr] at h hb
      replace hb : w.file = d.logBytes p.state.memTable ++ bytes := hb
      cases r with
      | ok u =>
          cases h
          refine ⟨rfl, bytes, logFiles_alterLog hd fun l => ?_⟩
          rw [hf, ← hb]
          rfl
      | error e =>
          cases h
          refine ⟨rfl, bytes, logFiles_alterLog hd fun l => ?_⟩
          rw [← hb]
          rfl

/-- What an action does to the logs. -/
theorem logFiles_step [Crc32] (hd : (d.logFiles.map Prod.fst).Nodup) (h : p.step d a = some (d', p', o)) :
    d'.logFiles = d.logFiles ∧ p'.nextWal = p.nextWal ∨
      ∃ act, LogFiles.step ⟨d.logFiles, p.nextWal⟩ act = ⟨d'.logFiles, p'.nextWal⟩ := by
  by_cases ha : a = .append
  · subst ha
    have hcall : p'.nextWal = p.nextWal ∧ ∃ bytes, d'.logFiles =
        d.logFiles.map fun l => if l.1 = p.state.memTable then (l.1, l.2 ++ bytes) else l := by
      simp only [Process.step, Process.append] at h
      split at h
      case h_1 => exact logFiles_appendCall hd h fun _ => rfl
      case h_2 => exact logFiles_appendCall hd h fun _ => rfl
      case h_3 =>
        split_ifs at h
        exact logFiles_appendCall hd h fun _ => rfl
      case h_4 => cases h
    obtain ⟨hn, bytes, hl⟩ := hcall
    exact .inr ⟨.append p.state.memTable bytes, by rw [LogFiles.step, hl, hn]⟩
  · cases step_of_eq h with
    | appendBegin | appendBatch | appendCommit | refuse => exact absurd rfl ha
    | @appendFails ts written buffered ht =>
        refine .inr ⟨.append p.state.memTable written, ?_⟩
        have hl := logFiles_alterLog (f := fun l =>
          { l with bytes := d.logBytes p.state.memTable ++ written }) hd fun _ => rfl
        rw [LogFiles.step, ← hl]
        rfl
    | createLog =>
        refine .inr ⟨.newWriter, ?_⟩
        have hl : (d.addLog p.nextWal).logFiles = d.logFiles ++ [(p.nextWal, [])] := List.map_append
        rw [LogFiles.step, hl]
    | createLogFails | freezeFails => exact .inr ⟨.newWriterFails, rfl⟩
    | @removeLog mt hf =>
        refine .inr ⟨.remove mt, ?_⟩
        have hl : (d.wal.filter fun l => l.id ≠ mt).map Log.file =
            d.logFiles.filter fun f => f.1 ≠ mt := by
          unfold Dir.logFiles
          rw [List.filter_map]
          rfl
        rw [LogFiles.step, ← hl]
        rfl
    | _ => exact .inl ⟨rfl, rfl⟩

end steps

/-! ### Runs -/

/-- The counter is not used up by the next log. -/
def Room (s : Sys) (_ : Act) : Prop :=
  s.proc.elim (latestId s.dir.logFiles + 1) Process.nextWal < 2 ^ 64

instance (s : Sys) (a : Act) : Decidable (Room s a) := inferInstanceAs (Decidable (_ < _))

/-- The named files are the logs of the engine, and other files. -/
structure Named (others : WalDir) (s : Sys) (w : Wal) : Prop where
  inv : w.Inv others
  logs : w.dir.logs = s.dir.logFiles
  counter : ∀ p ∈ s.proc, w.id = p.nextWal

/-- A step without names has one with names. -/
theorem Wal.Inv.exists_step {others : WalDir} {w : Wal} (h : w.Inv others) (act : WalAct)
    (hid : w.id < 2 ^ 64) : ∃ (acts : List WalAct) (w' : Wal), acts.foldlM Wal.step w = some w' ∧ w'.Inv others ∧
      LogFiles.step ⟨w.dir.logs, w.id⟩ act = ⟨w'.dir.logs, w'.id⟩ := by
  have hone : ∀ w', w.step act = some w' → ∃ (acts : List WalAct) (w' : Wal),
      acts.foldlM Wal.step w = some w' ∧ w'.Inv others ∧
      LogFiles.step ⟨w.dir.logs, w.id⟩ act = ⟨w'.dir.logs, w'.id⟩ := by
    intro w' hs
    have hrun : [act].foldlM Wal.step w = some w' := by
      rw [List.foldlM_cons, hs]
      rfl
    exact ⟨[act], w', hrun, (h.step hs).1, (h.step hs).2.1⟩
  -- an id that is no `u64` is none of a log
  have hne : ∀ {id : ℕ}, ¬ id < 2 ^ 64 → ∀ l ∈ w.dir.logs, l.1 ≠ id := by
    intro id hn l hl he
    have hlt := h.fresh l hl
    omega
  cases act with
  | newWriter => exact hone _ (if_pos hid)
  | newWriterFails => exact hone _ (if_pos hid)
  | append id bytes =>
      by_cases hlt : id < 2 ^ 64
      · exact hone _ (if_pos hlt)
      · refine ⟨[], w, rfl, h, ?_⟩
        have hmap : w.dir.logs.map (fun l => if l.1 = id then (l.1, l.2 ++ bytes) else l) = w.dir.logs :=
          (List.map_congr_left fun l hl => if_neg (hne hlt l hl)).trans (List.map_id' _)
        rw [LogFiles.step, hmap]
  | remove id =>
      by_cases hlt : id < 2 ^ 64
      · exact hone _ (if_pos hlt)
      · refine ⟨[], w, rfl, h, ?_⟩
        have hfilter : w.dir.logs.filter (fun f => f.1 ≠ id) = w.dir.logs :=
          List.filter_eq_self.mpr fun l hl => by simp [hne hlt l hl]
        rw [LogFiles.step, hfilter]
  | reopen => exact hone _ rfl

section code
variable [Crc32]

/-- A process acts on its directory, or is gone. -/
theorem step_running {d : Dir} {p : Process} {s' : Sys} {a : Act} {o : Out}
    (h : step ⟨d, some p⟩ a = some (s', o)) :
    s' = ⟨d, none⟩ ∨ ∃ d' p', p.step d a = some (d', p', o) ∧ s' = ⟨d', some p'⟩ := by
  unfold step at h
  split at h
  case h_1 hp => cases hp
  case h_2 hp _ => cases hp
  case h_3 => exact .inl (congrArg Prod.fst (Option.some.inj h)).symm
  case h_4 a q hq _ =>
    cases hq
    obtain ⟨⟨d', p', o'⟩, hs, he⟩ := Option.map_eq_some_iff.mp h
    cases he
    exact .inr ⟨d', p', hs, rfl⟩

theorem Named.step {others : WalDir} {s s' : Sys} {w : Wal} {a : Act} {o : Out} (h : Named others s w)
    (hroom : Room s a) (hs : step s a = some (s', o)) :
    ∃ (acts : List WalAct) (w' : Wal), acts.foldlM Wal.step w = some w' ∧ Named others s' w' := by
  have hd : (s.dir.logFiles.map Prod.fst).Nodup := h.logs ▸ h.inv.plain.nodup_ids
  obtain ⟨d, proc⟩ := s
  cases proc with
  | some p =>
      rcases step_running hs with rfl | ⟨d', p', hp, rfl⟩
      · exact ⟨[], w, rfl, h.inv, h.logs, fun _ hp => nomatch hp⟩
      · have hcounter : w.id = p.nextWal := h.counter p rfl
        rcases logFiles_step hd hp with ⟨hl, hn⟩ | ⟨act, hact⟩
        · refine ⟨[], w, rfl, h.inv, h.logs.trans hl.symm, fun q hq => ?_⟩
          cases hq
          exact hcounter.trans hn.symm
        · obtain ⟨acts, w', hrun, hinv, hstep⟩ := h.inv.exists_step act (hcounter ▸ hroom)
          have hlogs : w.dir.logs = d.logFiles := h.logs
          rw [hlogs, hcounter, hact, LogFiles.mk.injEq] at hstep
          refine ⟨acts, w', hrun, hinv, hstep.1.symm, fun q hq => ?_⟩
          cases hq
          exact hstep.2.symm
  | none =>
      obtain ⟨w₁, hw₁⟩ : ∃ w₁, w.step .reopen = some w₁ := ⟨_, rfl⟩
      obtain ⟨hinv₁, hlogs₁, -⟩ := h.inv.step hw₁
      obtain ⟨hl₁, hid₁⟩ := LogFiles.mk.inj hlogs₁
      cases sysStep_of_eq hs with
      | opened ho =>
          obtain ⟨restored, storage, -, -, rfl⟩ := Process.openDb_eq ho
          have hlatest : w₁.id = latestId d.logFiles + 1 := by rw [← hid₁, h.logs]
          obtain ⟨w₂, hw₂⟩ : ∃ w₂, w₁.step .newWriter = some w₂ := ⟨_, if_pos (hlatest ▸ hroom)⟩
          obtain ⟨hinv₂, hlogs₂, -⟩ := hinv₁.step hw₂
          obtain ⟨hl₂, hid₂⟩ := LogFiles.mk.inj hlogs₂
          have hadd : (d.addLog (latestId d.logFiles + 1)).logFiles =
              d.logFiles ++ [(latestId d.logFiles + 1, [])] := List.map_append
          refine ⟨[.reopen, .newWriter], w₂, ?_, hinv₂, ?_, fun q hq => ?_⟩
          · rw [List.foldlM_cons, hw₁]
            show [WalAct.newWriter].foldlM Wal.step w₁ = some w₂
            rw [List.foldlM_cons, hw₂]
            rfl
          · rw [← hl₂, ← hl₁, h.logs, hlatest]
            exact hadd.symm
          · cases hq
            rw [← hid₂, hlatest]
            rfl
      | notOpened =>
          refine ⟨[.reopen], w₁, ?_, hinv₁, hl₁.symm.trans h.logs, fun _ hp => nomatch hp⟩
          rw [List.foldlM_cons, hw₁]
          rfl

/-- **The engine on named logs**: on a directory without logs, where other files may be, every run of the
engine that does not use up the ids is a run on named files.  They are its logs and the files that were
there; the next log takes the id of the engine's counter, which is no file's name; and `Wal::restore`
returns what opening the engine's directory replays, and creates no file. -/
theorem named_run {s : Sys} {dir : WalDir} (hdir : dir.Plain) (hlogs : dir.logs = [])
    (h : Reach Room s) :
    ∃ (acts : List WalAct) (w : Wal), acts.foldlM Wal.step (Wal.new dir) = some w ∧
      w.dir.logs = s.dir.logFiles ∧ w.dir.others = dir.others ∧
      (∀ p ∈ s.proc, w.id = p.nextWal ∧ (p.nextWal < 2 ^ 64 → walName p.nextWal ∉ w.dir.names)) ∧
      w.dir.restore = (restore s.dir.logFiles, w.dir) := by
  have hrun : ∃ (acts : List WalAct) (w : Wal), acts.foldlM Wal.step (Wal.new dir) = some w ∧
      Named dir.others s w := by
    induction h with
    | refl => exact ⟨[], Wal.new dir, rfl, Wal.inv_new hdir, hlogs, fun _ hp => nomatch hp⟩
    | tail _ hroom hs ih =>
        obtain ⟨acts, w, hw, hn⟩ := ih
        obtain ⟨acts', w', hw', hn'⟩ := hn.step hroom hs
        refine ⟨acts ++ acts', w', ?_, hn'⟩
        rw [List.foldlM_append, hw]
        exact hw'
  obtain ⟨acts, w, hw, hn⟩ := hrun
  refine ⟨acts, w, hw, hn.logs, hn.inv.others, fun p hp => ?_, hn.logs ▸ hn.inv.plain.restore_eq⟩
  have hid := hn.counter p hp
  exact ⟨hid, fun hlt => hid ▸ (hn.inv.plain.openFile (hid ▸ hlt) hn.inv.fresh).1⟩

end code

/-- A set, a freeze and a crash. -/
theorem named_run_freeze : ∃ s : Sys, @Reach crc32 Room s ∧ s.dir.wal.length = 3 ∧
    ∃ (acts : List WalAct) (w : Wal), acts.foldlM Wal.step (Wal.new [("3.tmp".toList, [0])]) = some w ∧
      w.dir.logs = s.dir.logFiles ∧ w.dir.others = [("3.tmp".toList, [0])] := by
  have h : (@exec crc32 Room _ .init
      (.open :: setActs keyK textOne ++ freezeActs ++ [.crash, .open])).map
        (fun s => s.dir.wal.length) = some 3 := by decide +kernel
  obtain ⟨s, hs, hlen⟩ := Option.map_eq_some_iff.mp h
  have hreach : @Reach crc32 Room s := @reach_of_exec crc32 _ _ _ _ hs
  have hplain : WalDir.Plain [("3.tmp".toList, [0])] := by
    refine ⟨List.nodup_singleton _, fun name hm id hp => ?_⟩
    rw [List.mem_singleton.mp hm] at hp
    have hnone : parseUInt 64 "3.tmp".toList = none := by decide
    exact nomatch hnone.symm.trans hp
  obtain ⟨acts, w, hw, hl, ho, -⟩ := @named_run crc32 s _ hplain (by decide) hreach
  exact ⟨s, hreach, hlen, acts, w, hw, hl, ho.trans (by decide)⟩

end LowDB
