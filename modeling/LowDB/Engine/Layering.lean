import LowDB.Engine.Current

/-! # The order of the components

Lookups stop at the first component with an answer, so a component must not hold a version that should
have come before one in front of it.  `Process.Stacked` says so of the components of a process and of
the files it would be opened from (`Over`), and bounds the versions that memtables, logs and tables
hold.  `Process.Written` says that the memtables are written to tables in the order in which they were
frozen, each once.

The main result is `layering`: both hold in every run in which no operation fails and no append is
refused. -/

namespace LowDB

open Layered

/-- The memtable whose table is written and which is still in use. -/
def FlushLock.covered : FlushLock → Option ℕ
  | renamed mt _ | installed mt => some mt
  | _ => none

namespace Process

variable {d d' : Dir} {p p' : Process} {a : Act} {o : Out} {rest : List ℕ}

/-- The components of the current state, in the order of `State::get_snap`. -/
def components (p : Process) : List (Layer Str (Option Str)) :=
  p.state.ids.map (fun id => layer (p.mems id).entries) ++
    p.storage.tables.map fun t => layer t.entries

/-- What holds of the versions that are stored. -/
structure Stacked (d : Dir) (p : Process) : Prop where
  layered : p.components.Pairwise Over
  recovered : d.recovered.Pairwise Over
  mems : ∀ id, ∀ e ∈ (p.mems id).entries, e.1.seq.toNat < p.oracle.nextSeq
  logs : ∀ l ∈ d.wal, ∀ e ∈ l.recorded, e.1.seq.toNat < p.oracle.nextSeq
  files : ∀ f ∈ d.ss, ∀ e ∈ f.entries, e.1.seq.toNat ≤ p.oracle.visible

/-! ### Components in order -/

/-- A version is put that is newer than all in the other components. -/
theorem over_put {e : Entry} {c : CommitLock} (h : p.components.Pairwise Over)
    (hn : p.state.memTable ∉ p.state.frozen)
    (hmems : ∀ id ∈ p.state.frozen, ∀ x ∈ (p.mems id).entries, x.1.seq.toNat ≤ e.1.seq.toNat)
    (htables : ∀ t ∈ p.storage.tables, ∀ x ∈ t.entries, x.1.seq.toNat ≤ e.1.seq.toNat) :
    (components { p with
      mems := Function.update p.mems p.state.memTable ((p.mems p.state.memTable).put e.1 e.2)
      commit := c }).Pairwise Over := by
  have hfrozen : p.state.frozen.map (fun id => layer (Function.update p.mems p.state.memTable
      ((p.mems p.state.memTable).put e.1 e.2) id).entries) =
        p.state.frozen.map fun id => layer (p.mems id).entries := by
    apply List.map_congr_left
    intro id hid
    have hne : id ≠ p.state.memTable := fun he => hn (he ▸ hid)
    rw [Function.update_of_ne hne]
  unfold components State.ids at h ⊢
  dsimp only
  rw [List.map_cons, List.cons_append] at h ⊢
  rw [hfrozen, Function.update_self, MemTable.put_entries]
  apply pairwise_over_grow h (layer_mono (subset_insertEntry _ _))
  rintro k m ⟨v, x, hx, hxv⟩
  cases List.mem_cons.mp (insertEntry_subset _ _ hx) with
  | inr hx => exact .inl ⟨v, x, hx, hxv⟩
  | inl hx =>
      have hm : m = e.1.seq.toNat := (congrArg (fun y => y.2.1) (hx ▸ hxv : e.version = _)).symm
      refine .inr ?_
      intro A hA n hn
      rw [hm]
      cases List.mem_append.mp hA with
      | inl hA =>
          obtain ⟨id, hid, rfl⟩ := List.mem_map.mp hA
          obtain ⟨y, hy, _, rfl⟩ := holds_layer_iff.mp hn
          exact hmems id hid y hy
      | inr hA =>
          obtain ⟨t, ht, rfl⟩ := List.mem_map.mp hA
          obtain ⟨y, hy, _, rfl⟩ := holds_layer_iff.mp hn
          exact htables t ht y hy

/-- The tables have what the files have. -/
theorem tables_le [Crc32] {n : ℕ} (hA : p.Attached d)
    (h : ∀ f ∈ d.ss, ∀ e ∈ f.entries, e.1.seq.toNat ≤ n) :
    ∀ t ∈ p.storage.tables, ∀ e ∈ t.entries, e.1.seq.toNat ≤ n := by
  intro t ht e he
  have hmem : t.entries ∈ d.ss.reverse.map TableFile.entries := by
    rw [hA.tables]
    exact List.mem_append_right _ (List.mem_map_of_mem ht)
  obtain ⟨f, hf, hfe⟩ := List.mem_map.mp hmem
  exact h f (List.mem_reverse.mp hf) e (hfe ▸ he)

variable [Crc32]

theorem over_step (h : p.Stacked d) (hc : p.Consistent d []) (hset : p.Settled)
    (hA : p.Attached d) (hs : Step d p a o d' p') : p'.components.Pairwise Over := by
  have hover := h.layered
  cases hs with
  | put hl he =>
      have hco := hc.conflicts
      have hph := hc.phase
      unfold Conflicts at hco
      unfold Phase at hph
      rw [hl] at hco hph
      have hlt := (hco.openTs _ rfl).1
      have hseq := Buffer.seq_of_mem_batch (hph.ts _ rfl) (List.mem_of_getElem? he)
      have hn := active_notMem_frozen hc.ids
      apply over_put hover (fun h => hn (List.mem_append_left _ h))
      · exact fun id hid x hx => ((hset.frozen id hid x hx).trans hlt.le).trans hseq.ge
      · exact fun t ht x hx => ((tables_le hA h.files t ht x hx).trans hlt.le).trans hseq.ge
  | @swap _ new hl =>
      have hi := hc.ids
      unfold Ids at hi
      rw [hl] at hi
      have hnew := hi.unused new (.inl (List.mem_singleton.mpr rfl))
      unfold components
      simp only [entries_update_new hnew]
      unfold State.ids
      rw [List.map_cons, hnew, layer_nil]
      exact pairwise_over_cons_empty hover
  | @install mt t hf =>
      obtain ⟨⟨fs, hfs⟩, htables⟩ := hc.flush.install hf
      have hids : p.state.ids = (p.state.memTable :: fs) ++ [mt] := by
        rw [State.ids, hfs]
        rfl
      unfold components at hover ⊢
      dsimp only
      rw [hids, List.map_append, List.append_assoc] at hover ⊢
      rw [htables]
      exact pairwise_over_insert_top hover
  | retire =>
      refine hover.sublist ?_
      unfold components
      refine List.Sublist.append (List.Sublist.map _ ?_) (List.Sublist.refl _)
      exact List.Sublist.cons_cons _ List.filter_sublist
  | _ => exact hover

/-! ### Files in order -/

omit [Crc32] in
/-- The oldest log is that of the oldest frozen memtable, unless logs are left over. -/
theorem exists_oldest {mt : ℕ} {fs : List ℕ} (hi : p.Ids d []) (hf : p.flush = .picked mt)
    (hfs : p.state.frozen = fs ++ [mt]) : ∃ ls l, d.wal.reverse = ls ++ [l] ∧ l.id = mt := by
  have ho := hi.order
  have hheld : p.flush.held = [] := by rw [hf]; rfl
  rw [State.ids, hfs, hheld, ← List.map_reverse] at ho
  simp only [List.append_nil, ← List.cons_append, ← List.append_assoc] at ho
  obtain ⟨ls, l', hl, -, hmt⟩ := List.map_eq_append_iff.mp ho
  obtain ⟨l, ls', rfl, hlid, hnil⟩ := List.map_eq_cons_iff.mp hmt
  exact ⟨ls, l, by rw [hl, List.map_eq_nil_iff.mp hnil], hlid⟩

theorem recovered_step (h : p.Stacked d) (hc : p.Consistent d []) (hF : Files d)
    (hA : p.Attached d) (hs : Step d p a o d' p') (hd' : d'.refused = false) :
    d'.recovered.Pairwise Over := by
  have hrec := h.recovered
  cases hs with
  | appendBegin =>
      rwa [Dir.recovered_alterLog]
      exact fun _ => rfl
  | appendBatch =>
      rwa [Dir.recovered_alterLog]
      exact fun _ => rfl
  | refuse => cases hd'
  | appendFails => cases hd'
  | appendCommit hl =>
      obtain ⟨L, Ls, hL, hL'⟩ := recovered_commit hF hc.ids hc.phase hc.conflicts hl
      have hsub := hF.sub
      rw [hL] at hrec hsub
      have hph := hc.phase
      have hco := hc.conflicts
      unfold Phase at hph
      unfold Conflicts at hco
      rw [hl] at hph hco
      have hlt := (hco.openTs _ rfl).1
      rw [hL']
      apply pairwise_over_grow hrec Set.subset_union_left
      rintro k m ⟨v, hv⟩
      cases hv with
      | inl hv => exact .inl ⟨v, hv⟩
      | inr hv =>
          refine .inr ?_
          rintro A hA n ⟨w, hw⟩
          rw [Buffer.time_of_layer_batch (hph.ts _ rfl) hv]
          exact (hph.hist_le rfl (hsub A (List.mem_cons_of_mem _ hA) hw)).trans hlt.le
  | createLog =>
      rw [Dir.recovered_addLog]
      exact pairwise_over_cons_empty hrec
  | @writeTable mt bytes m hf hw =>
      have hfl := hc.flush
      unfold Flush at hfl
      rw [hf] at hfl
      obtain ⟨fs, hfs⟩ := hfl
      obtain ⟨ls, l, hw', hlid⟩ := exists_oldest hc.ids hf hfs
      have hlmem : l ∈ d.wal := List.mem_reverse.mp (by simp [hw'])
      have hmatch := (hA.frozen l hlmem (by simp [hlid, hfs])).layer_eq
      have htop : layer (newest (p.mems mt).entries) = top l.layer := by
        rw [layer_newest (p.mems mt).sorted, ← hlid, hmatch]
      unfold Dir.recovered at hrec
      rw [hw', List.map_append, List.append_assoc] at hrec
      rw [recovered_putFile hA.tableId, hw', List.map_append, List.append_assoc]
      show (ls.map Log.layer ++ l.layer :: layer (newest (p.mems mt).entries) :: _).Pairwise Over
      rw [htop]
      exact pairwise_over_insert_top hrec
  | removeLog =>
      refine hrec.sublist ?_
      unfold Dir.recovered
      exact List.Sublist.append (List.filter_sublist.reverse.map _) (List.Sublist.refl _)
  | _ => exact hrec

/-! ### Bounds -/

omit [Crc32] in
theorem mem_recorded_append {l : Log} {c : Commit} {ts : ℕ} {e : Entry} {bytes : Bytes}
    (h : e ∈ Log.recorded { l with bytes := bytes
                                   sets := l.sets ++ [⟨c.tx, c.buffer.batch ts⟩]
                                   tail := .none }) :
    e ∈ l.recorded ∨ e ∈ c.buffer.batch ts := by
  unfold Log.recorded at h ⊢
  simp only [List.flatMap_append, List.flatMap_singleton, Tail.entries, List.append_nil,
    List.mem_append] at h ⊢
  exact h.imp_left .inl

omit [Crc32] in
/-- A log that is changed by the commit at `ts` gets versions of this commit only. -/
theorem logs_alterLog {n ts id : ℕ} {c : Commit} {f : Log → Log} (hts : ts < 2 ^ 64) (hlt : ts < n)
    (h : ∀ l ∈ d.wal, ∀ e ∈ l.recorded, e.1.seq.toNat < n)
    (hf : ∀ l, ∀ e ∈ (f l).recorded, e ∈ l.recorded ∨ e ∈ c.buffer.batch ts) :
    ∀ l ∈ (d.alterLog id f).wal, ∀ e ∈ l.recorded, e.1.seq.toNat < n := by
  intro l' hl' e he
  obtain ⟨l, hl, rfl⟩ := Dir.mem_alterLog.mp hl'
  by_cases hid : l.id = id
  · rw [if_pos hid] at he
    cases hf l e he with
    | inl he => exact h l hl e he
    | inr he => exact (Buffer.seq_of_mem_batch hts he).trans_lt hlt
  · rw [if_neg hid] at he
    exact h l hl e he

theorem logs_step (h : p.Stacked d) (ho : p.Ordered d rest) (hs : Step d p a o d' p')
    (hd' : d'.refused = false) :
    ∀ l ∈ d'.wal, ∀ e ∈ l.recorded, e.1.seq.toNat < p'.oracle.nextSeq := by
  have hlogs := h.logs
  have hco := ho.conflicts
  have hts := ho.ts
  unfold Conflicts at hco
  cases hs with
  | stamp => exact fun l hl e he => (hlogs l hl e he).trans (Nat.lt_succ_self _)
  | @appendBegin c ts hc =>
      rw [hc] at hco hts
      refine @logs_alterLog _ _ ts _ c _ (hts _ rfl) (hco.openTs _ rfl).2 hlogs ?_
      intro l e he
      unfold Log.recorded at he ⊢
      simp only [Tail.entries, List.append_nil] at he
      exact .inl (List.mem_append_left _ he)
  | @appendBatch c ts hc =>
      rw [hc] at hco hts
      refine @logs_alterLog _ _ ts _ c _ (hts _ rfl) (hco.openTs _ rfl).2 hlogs ?_
      intro l e he
      unfold Log.recorded at he ⊢
      exact (List.mem_append.mp he).imp_left (List.mem_append_left _)
  | refuse => cases hd'
  | appendFails => cases hd'
  | @appendCommit c ts hc =>
      rw [hc] at hco hts
      exact @logs_alterLog _ _ ts _ c _ (hts _ rfl) (hco.openTs _ rfl).2 hlogs fun l e he =>
        mem_recorded_append he
  | createLog =>
      intro l hl
      cases List.mem_append.mp hl with
      | inl hl => exact hlogs l hl
      | inr hl =>
          rw [List.mem_singleton.mp hl]
          exact fun _ h => nomatch h
  | removeLog => exact fun l hl => hlogs l (List.mem_filter.mp hl).1
  | _ => exact hlogs

theorem mems_step (h : p.Stacked d) (ho : p.Ordered d rest) (hs : Step d p a o d' p') :
    ∀ id, ∀ e ∈ (p'.mems id).entries, e.1.seq.toNat < p'.oracle.nextSeq := by
  have hmems := h.mems
  have hco := ho.conflicts
  have hts := ho.ts
  unfold Conflicts at hco
  cases hs with
  | stamp => exact fun id e he => (hmems id e he).trans (Nat.lt_succ_self _)
  | @put c ts n e hc he =>
      rw [hc] at hco hts
      have hseq := Buffer.seq_of_mem_batch (hts _ rfl) (List.mem_of_getElem? he)
      have hlt := (hco.openTs _ rfl).2
      intro id x hx
      have hx : x ∈ (Function.update p.mems p.state.memTable _ id).entries := hx
      by_cases hid : id = p.state.memTable
      · rw [hid, Function.update_self, MemTable.put_entries] at hx
        cases List.mem_cons.mp (insertEntry_subset _ _ hx) with
        | inl hx =>
            subst hx
            exact hseq.trans_lt hlt
        | inr hx => exact hmems _ x hx
      · rw [Function.update_of_ne hid] at hx
        exact hmems id x hx
  | @swap _ new hc =>
      have hi := ho.ids
      unfold Ids at hi
      rw [hc] at hi
      intro id e he
      have he : e ∈ (Function.update p.mems new (.new new) id).entries := he
      rw [entries_update_new (hi.unused new (.inl (List.mem_singleton.mpr rfl)))] at he
      exact hmems id e he
  | _ => exact hmems

theorem files_le_step (h : p.Stacked d) (hc : p.Consistent d rest) (hset : p.Settled)
    (hs : Step d p a o d' p') : ∀ f ∈ d'.ss, ∀ e ∈ f.entries, e.1.seq.toNat ≤ p'.oracle.visible := by
  have hfiles := h.files
  cases hs with
  | publish hl =>
      have hco := hc.conflicts
      unfold Conflicts at hco
      rw [hl] at hco
      exact fun f hf e he => (hfiles f hf e he).trans (hco.openTs _ rfl).1.le
  | @writeTable mt bytes m hf hw =>
      have hfl := hc.flush
      unfold Flush at hfl
      rw [hf] at hfl
      obtain ⟨fs, hfs⟩ := hfl
      intro f hfm e he
      unfold putFile at hfm
      cases List.mem_append.mp hfm with
      | inl hfm => exact hfiles f (List.mem_filter.mp hfm).1 e he
      | inr hfm =>
          rw [List.mem_singleton.mp hfm] at he
          refine hset.frozen mt (by simp [hfs]) e ((newest_sublist _).subset he)
  | _ => exact hfiles

theorem Stacked.step (h : p.Stacked d) (hc : p.Consistent d []) (ho : p.Ordered d rest)
    (hset : p.Settled) (hs : Step d p a o d' p') (hd' : d'.refused = false) : p'.Stacked d' := by
  obtain ⟨hF, hA⟩ := hc.files (refused_of_step hs hd')
  exact ⟨over_step h hc hset hA hs, recovered_step h hc hF hA hs hd', mems_step h ho hs,
    logs_step h ho hs hd', files_le_step h hc hset hs⟩

/-! ### Tables in the order of freezing -/

/-- What holds of the memtables written to tables: they are older than those in use, except for the one
whose flush is not over, and the first tables are theirs. -/
structure Written (p : Process) : Prop where
  sorted : p.written.Pairwise fun a b => a < b
  below : ∀ w ∈ p.written, ∀ id ∈ p.state.ids, w < id ∨ p.flush.covered = some id
  tables : ∃ ts, p.flush.newTables ++ p.storage.tables.map Table.entries =
    p.written.reverse.map (fun id => newest (p.mems id).entries) ++ ts

omit [Crc32] in
theorem covered_mem {mt : ℕ} (h : p.Flush) (hc : p.flush.covered = some mt) :
    mt ∈ p.state.frozen := by
  unfold Flush at h
  cases hf : p.flush with
  | renamed m t =>
      rw [hf] at h hc
      obtain ⟨⟨fs, hfs⟩, -⟩ := h
      cases hc
      simp [hfs]
  | installed m =>
      rw [hf] at h hc
      obtain ⟨⟨fs, hfs⟩, -⟩ := h
      cases hc
      simp [hfs]
  | _ =>
      rw [hf] at hc
      cases hc

omit [Crc32] in
/-- The memtables written are older than the active one. -/
theorem Written.lt_active (h : p.Written) (hi : p.Ids d rest) (hfl : p.Flush) {w : ℕ}
    (hw : w ∈ p.written) : w < p.state.memTable := by
  apply (h.below w hw p.state.memTable List.mem_cons_self).resolve_right
  intro hc
  exact active_notMem_frozen hi (List.mem_append_left _ (covered_mem hfl hc))

omit [Crc32] in
/-- Nothing is covered by a flush that has written nothing yet. -/
theorem Written.lt_of_covered (h : p.Written) (hc : p.flush.covered = none) :
    ∀ w ∈ p.written, ∀ id ∈ p.state.ids, w < id := by
  intro w hw id hid
  apply (h.below w hw id hid).resolve_right
  intro hcov
  cases hc.symm.trans hcov

omit [Crc32] in
/-- The oldest frozen memtable is the oldest of all. -/
theorem le_of_frozen {mt : ℕ} {fs : List ℕ} (hi : p.Ids d rest)
    (hfs : p.state.frozen = fs ++ [mt]) :
    mt ∈ p.state.ids ∧ ∀ id ∈ p.state.ids, mt ≤ id := by
  have hids : p.state.ids = (p.state.memTable :: fs) ++ [mt] := by
    rw [State.ids, hfs]
    rfl
  have hdesc : p.state.ids.Pairwise fun a b => b < a :=
    (List.pairwise_append.mp (List.pairwise_append.mp hi.desc).2.1).1
  rw [hids] at hdesc ⊢
  refine ⟨List.mem_concat_self, ?_⟩
  intro id hid
  cases List.mem_append.mp hid with
  | inl hid => exact ((List.pairwise_append.mp hdesc).2.2 id hid mt List.mem_cons_self).le
  | inr hid => exact (List.mem_singleton.mp hid).ge

omit [Crc32] in
/-- Steps that change no memtable written, move no table and end no flush of a memtable in use. -/
theorem Written.frame (h : p.Written) (hw : p'.written = p.written)
    (hm : ∀ w ∈ p.written, (p'.mems w).entries = (p.mems w).entries)
    (hst : p'.state.ids ⊆ p.state.ids)
    (hc : ∀ id ∈ p'.state.ids, p.flush.covered = some id → p'.flush.covered = some id)
    (hn : p'.flush.newTables = p.flush.newTables)
    (ht : p'.storage.tables = p.storage.tables) : p'.Written where
  sorted := hw ▸ h.sorted
  below w hmem id hid := (h.below w (hw ▸ hmem) id (hst hid)).imp_right (hc id hid)
  tables := by
    obtain ⟨ts, hts⟩ := h.tables
    refine ⟨ts, ?_⟩
    rw [hn, ht, hw, hts]
    congr 1
    apply List.map_congr_left
    intro w hmem
    rw [hm w (List.mem_reverse.mp hmem)]

omit [Crc32] in
/-- Steps of a flush that neither add a table nor find or leave one. -/
theorem Written.flushed {f f' : FlushLock} {storage : DiskStorage} (h : p.Written)
    (hf : p.flush = f) (hc : f.covered = none) (hn : f'.newTables = f.newTables)
    (ht : storage.tables = p.storage.tables) :
    Written { p with storage := storage, flush := f' } := by
  refine h.frame rfl (fun _ _ => rfl) (fun _ h => h) (fun id _ hid => ?_) (hf ▸ hn) ht
  rw [hf, hc] at hid
  cases hid

theorem written_step (h : p.Written) (hi : p.Ids d rest) (hfl : p.Flush)
    (hs : Step d p a o d' p') : p'.Written := by
  have hfl' := hfl
  unfold Flush at hfl'
  cases hs with
  | put =>
      refine h.frame rfl (fun w hw => ?_) (fun _ h => h) (fun _ _ h => h) rfl rfl
      exact congrArg MemTable.entries (Function.update_of_ne (h.lt_active hi hfl hw).ne _ _)
  | @swap _ new hc =>
      have hi' := hi
      unfold Ids at hi'
      rw [hc] at hi'
      have hnew := hi'.unused new (.inl (List.mem_singleton.mpr rfl))
      have hact : p.state.memTable ∈ p.state.ids ++ (p.flush.held ++ rest) :=
        List.mem_append_left _ List.mem_cons_self
      have hlt : p.state.memTable < new := (List.pairwise_cons.mp hi'.desc).1 _ hact
      refine ⟨h.sorted, ?_, ?_⟩
      · intro w hw id hid
        cases List.mem_cons.mp hid with
        | inl hid => exact .inl (hid ▸ (h.lt_active hi hfl hw).trans hlt)
        | inr hid => exact h.below w hw id hid
      · simp only [entries_update_new hnew]
        exact h.tables
  | pick hf => exact h.flushed hf rfl rfl rfl
  | @writeTable mt bytes m hf hw =>
      rw [hf] at hfl'
      obtain ⟨fs, hfs⟩ := hfl'
      have hlast := le_of_frozen hi hfs
      have hlt := h.lt_of_covered (hf ▸ rfl : p.flush.covered = none)
      refine ⟨?_, ?_, ?_⟩
      · refine List.pairwise_append.mpr ⟨h.sorted, List.pairwise_singleton _ _, ?_⟩
        intro w hw b hb
        exact List.mem_singleton.mp hb ▸ hlt w hw mt hlast.1
      · intro w hmem id hid
        cases List.mem_append.mp hmem with
        | inl hmem => exact .inl (hlt w hmem id hid)
        | inr hmem =>
            rw [List.mem_singleton.mp hmem]
            exact (hlast.2 id hid).lt_or_eq.imp_right (congrArg some)
      · obtain ⟨ts, hts⟩ := h.tables
        rw [hf] at hts
        refine ⟨ts, ?_⟩
        rw [List.reverse_append]
        exact congrArg (newest (p.mems mt).entries :: ·) hts
  | writeNothing hf => exact h.flushed hf rfl rfl rfl
  | writeRefused hf => exact h.flushed hf rfl rfl rfl
  | writeTableFails hf => exact h.flushed hf rfl rfl rfl
  | install hf =>
      obtain ⟨ts, hts⟩ := h.tables
      refine ⟨h.sorted, ?_, ts, ?_⟩
      · intro w hw id hid
        have hb := h.below w hw id hid
        rwa [hf] at hb
      · rw [DiskStorage.tables_install]
        rw [hf] at hts
        exact hts
  | @retire mt hf =>
      refine h.frame rfl (fun _ _ => rfl) (fun id hid => ?_) (fun id hid hc => ?_) ?_ rfl
      · cases List.mem_cons.mp hid with
        | inl hid => exact hid ▸ List.mem_cons_self
        | inr hid => exact List.mem_cons_of_mem _ (List.mem_filter.mp hid).1
      · have hmem := covered_mem hfl hc
        rw [hf] at hc
        cases hc
        cases List.mem_cons.mp hid with
        | inl hid => exact absurd (List.mem_append_left _ (hid ▸ hmem)) (active_notMem_frozen hi)
        | inr hid => simp at hid
      · rw [hf]
        rfl
  | removeLog hf => exact h.flushed hf rfl rfl rfl
  | removeLogFails hf => exact h.flushed hf rfl rfl rfl
  | _ => exact h.frame rfl (fun _ _ => rfl) (fun _ h => h) (fun _ _ h => h) rfl rfl

/-! ### Opening -/

theorem Opened.stacked (h : Opened d p) (hF : Files d) (hover : d.recovered.Pairwise Over)
    (hmems : ∀ id, ∀ e ∈ (p.mems id).entries, e.1.seq.toNat ≤ p.oracle.visible) :
    p.Stacked (d.addLog p.state.memTable) where
  layered := by
    unfold components
    rw [h.layers_current hF]
    exact pairwise_over_cons_empty hover
  recovered := by
    rw [Dir.recovered_addLog]
    exact pairwise_over_cons_empty hover
  mems id e he := (hmems id e he).trans_lt h.conflicts.next
  logs l hl e he := by
    cases List.mem_append.mp hl with
    | inl hl => exact (h.logged l hl e he).trans_lt h.conflicts.next
    | inr hl =>
        rw [List.mem_singleton.mp hl] at he
        cases he
  files := h.stored

theorem Opened.written' (h : Opened d p) : p.Written where
  sorted := by
    rw [h.written]
    exact List.Pairwise.nil
  below w hw := by
    rw [h.written] at hw
    cases hw
  tables := by
    rw [h.written, h.flush]
    exact ⟨_, rfl⟩

end Process

/-! ### Runs -/

/-- No operation fails, and no append has been refused. -/
def Clean (s : Sys) (a : Act) : Prop := a.fails = false ∧ s.dir.refused = false

theorem Clean.tidy : Tidy Clean where
  opens _ h := h.2
  commits _ _ _ _ h := nomatch h.1

section runs
variable [Crc32] {s s' : Sys} {p : Process} {a : Act} {o : Out}

theorem SysStep.refused (h : SysStep s a o s') (hd : s'.dir.refused = false) :
    s.dir.refused = false := by
  cases h with
  | step hs => exact Process.refused_of_step hs hd
  | _ => exact hd

/-- A refused append is not forgotten. -/
theorem Run.refused {P : Sys → Act → Prop} {r : Sys} (h : Run P r s) (hd : s.dir.refused = false) :
    r.dir.refused = false := by
  induction h with
  | refl => exact hd
  | tail _ _ hst ih => exact ih ((sysStep_of_eq hst).refused hd)

theorem Run.clean {r : Sys} (h : Run NoFailure r s) (hd : s.dir.refused = false) :
    Run Clean r s := by
  induction h with
  | refl => exact .refl
  | tail _ hP hst ih =>
      have hd' := (sysStep_of_eq hst).refused hd
      exact .tail (ih hd') ⟨hP, hd'⟩ hst

theorem Run.consistent_clean (h : Reach Clean s) :
    s.Holds (fun d => d.refused = false → Files d) fun d p => p.Consistent d [] :=
  h.consistent Clean.tidy fun _ _ ha => nomatch ha.1

theorem Run.stacked (h : Reach Clean s) :
    s.Holds (fun d => d.refused = false → d.recovered.Pairwise Over)
      fun d p => d.refused = false → p.Stacked d ∧ p.Written := by
  refine h.holds (fun d p hr ha hover ho _ => ?_) (fun d p hp hd => (hp hd).1.recovered)
    (fun d p a o d' p' hr ha hp hs hd' => ?_) fun _ => List.Pairwise.nil
  · have hF := hr.consistent_clean ha.2
    have hop := Process.opened hF ho
    exact ⟨hop.stacked hF (hover ha.2) (Process.ordered_open hF.sorted ho).2, hop.written'⟩
  · obtain ⟨hst, hw⟩ := hp ha.2
    obtain ⟨rest, hord, hset⟩ := (hr.mono fun _ _ h => h.1).settled
    refine ⟨hst.step hr.consistent_clean hord hset hs hd', ?_⟩
    exact Process.written_step hw hord.ids hord.flush hs

end runs

/-! ### The order of the components -/

/-- The components of a process, and the logs and tables of its directory, are in order. -/
structure Process.Layering [Crc32] (d : Dir) (p : Process) : Prop where
  /-- the first component with a version of `k` up to `s` has the newest of all -/
  first : ∀ pre L post k s n, p.components = pre ++ L :: post →
    (∀ A ∈ pre, Answers A k s none) → Newest L k s n →
      ∀ A ∈ p.components, ∀ m, Holds A k m → m ≤ s → m ≤ n
  frozen : ∀ id ∈ p.state.frozen, ∀ e ∈ (p.mems id).entries, e.1.seq.toNat ≤ p.oracle.visible
  tables : ∀ t ∈ p.storage.tables, ∀ e ∈ t.entries, e.1.seq.toNat ≤ p.oracle.visible
  files : ∀ f ∈ d.ss, f.Stored ∧ ∀ e ∈ f.entries, e.1.seq.toNat ≤ p.oracle.visible
  visible : p.oracle.visible < p.oracle.nextSeq
  mems : ∀ id, ∀ e ∈ (p.mems id).entries, e.1.seq.toNat < p.oracle.nextSeq
  logs : ∀ l ∈ d.wal, l.Intact ∧ ∀ e ∈ l.recorded, e.1.seq.toNat < p.oracle.nextSeq
  /-- memtables are numbered in the order in which they are frozen -/
  ids : p.state.ids.Pairwise fun a b => b < a
  /-- those written to tables come one after another, each once -/
  written : p.written.Pairwise fun a b => a < b
  /-- and the newest tables are theirs, the last one perhaps not installed yet -/
  order : ∃ ts, p.flush.newTables ++ p.storage.tables.map Table.entries =
    p.written.reverse.map (fun id => newest (p.mems id).entries) ++ ts

/-- **Layering**: in every state that is reached without a failed operation and without a refused
append, lookups may stop at the first component that knows the key. -/
theorem layering [Crc32] {s : Sys} {p : Process} (h : Reach NoFailure s)
    (hd : s.dir.refused = false) (hp : s.proc = some p) : p.Layering s.dir := by
  have hclean := h.clean hd
  have hc := hclean.consistent_clean
  have hst := hclean.stacked
  have hset := h.settled
  obtain ⟨d, _⟩ := s
  cases hp
  obtain ⟨hst, hw⟩ := hst hd
  obtain ⟨_, _, hset⟩ := hset
  have hc : p.Consistent d [] := hc
  obtain ⟨hF, hA⟩ := hc.files hd
  exact {
    first := fun pre L post k s n he hpre hn => by
      have hover := hst.layered
      rw [he] at hover ⊢
      exact newest_of_pairwise_over hover hpre hn
    frozen := hset.frozen
    tables := Process.tables_le hA hst.files
    files := fun f hf => ⟨hF.stored f hf, hst.files f hf⟩
    visible := hc.conflicts.next
    mems := hst.mems
    logs := fun l hl => ⟨hF.intact l hl, hst.logs l hl⟩
    ids := (List.pairwise_append.mp (List.pairwise_append.mp hc.ids.desc).2.1).1
    written := hw.sorted
    order := hw.tables }

/-- A key written in three components: a table left by a crash before its log was removed, the
memtable replayed from this log, and the active one. -/
def layeringCrash : Option (Sys × Process) := do
  let s ← @exec crc32 NoFailure _ .init (.open :: (setActs keyK textOne ++ setActs keyK textTwo ++
    freezeActs ++ [Act.pick, .writeTable, .crash, .open] ++ setActs keyK textOne))
  let p ← s.proc
  match p.state.frozen.length, p.storage.tables.length,
    (p.mems p.state.memTable).entries.length, s.dir.refused with
  | 2, 1, 1, false => return (s, p)
  | _, _, _, _ => none

theorem layering_crash : ∃ (s : Sys) (p : Process), s.proc = some p ∧ p.state.frozen.length = 2 ∧
    p.storage.tables.length = 1 ∧ (p.mems p.state.memTable).entries.length = 1 ∧
    @Process.Layering crc32 s.dir p := by
  have h : layeringCrash.isSome := by decide +kernel
  obtain ⟨⟨s, p⟩, h⟩ := Option.isSome_iff_exists.mp h
  unfold layeringCrash at h
  simp only [bind, Option.bind_eq_some_iff] at h
  obtain ⟨_, hs, _, hp, he⟩ := h
  split at he
  case h_2 => cases he
  case h_1 hf ht ha hd =>
    cases he
    exact ⟨s, p, hp, hf, ht, ha,
      @layering crc32 s p (@reach_of_exec crc32 _ _ _ _ hs) hd hp⟩

end LowDB
