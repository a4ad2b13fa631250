import Mathlib.Data.List.Perm.Basic
import LowDB.Storage.Directory
import LowDB.Storage.Wal

/-! # The logs directory by name

`storage/src/wal.rs`, with the names of the files.  A log has its id in decimal for a name; `wal_ids`
takes for a log every file whose name parses as a number, and `load_wals` opens the file that the
number would have.

In a directory where every such file has the name that `new_writer` gives, the files are logs by id, as
`LowDB.Storage.Wal` has them (`run_logs`): a new log never takes the name of a file, other files are
left alone, and `restore` creates nothing. -/

namespace LowDB

/-! ### Numbers -/

/-- The text of a `ParseIntError` for `n` followed by the digits `s`, which is the first thing found. -/
def parseDigitsError (bits n : ℕ) : Name → String
  | [] => "invalid digit found in string"
  | c :: s =>
    if ¬ c.isDigit then "invalid digit found in string"
    else
      let n := 10 * n + (c.toNat - '0'.toNat)
      if n < 2 ^ bits then parseDigitsError bits n s else "number too large to fit in target type"

def parseIntError (bits : ℕ) (s : Name) : String :=
  if s = [] then "cannot parse integer from empty string" else parseDigitsError bits 0 (stripPlus s)

/-- `s.parse::<u64>()?`. -/
def parseU64 (s : Name) : DbResult ℕ :=
  match parseUInt 64 s with
  | some n => .ok n
  | none => .error (.invalidValue (parseIntError 64 s))

/-! ### The directory -/

/-- What the directory `wal` lists, in some order. -/
abbrev WalDir := List (Name × Bytes)

/-- `format!("{}", id)`. -/
def walName (id : ℕ) : Name := Nat.toDigits 10 id

namespace WalDir

def names (dir : WalDir) : List Name := dir.map Prod.fst

/-- The bytes of a file. -/
def read (dir : WalDir) (name : Name) : Bytes :=
  ((dir.find? fun f => f.1 = name).map Prod.snd).getD []

/-- To open a file with `create` and without `truncate`. -/
def openFile (dir : WalDir) (name : Name) : WalDir :=
  if name ∈ dir.names then dir else dir ++ [(name, [])]

/-- To write to a file opened with `append`. -/
def append (dir : WalDir) (name : Name) (bytes : Bytes) : WalDir :=
  dir.map fun f => if f.1 = name then (f.1, f.2 ++ bytes) else f

/-- `fs::remove_file`, where a missing file is no error. -/
def remove (dir : WalDir) (name : Name) : WalDir := dir.filter fun f => f.1 ≠ name

/-- `wal_ids`. -/
def ids (dir : WalDir) : List ℕ := (dir.names.filterMap (parseUInt 64)).insertionSort (· ≤ ·)

/-- `latest_id`. -/
def latestId (dir : WalDir) : ℕ := dir.ids.getLast?.getD 0

/-- `load_wals`: the names of the readers, and the directory with the files that it has created. -/
def loadWals (dir : WalDir) : List Name × WalDir :=
  dir.ids.reverse.foldl (fun acc id => (acc.1 ++ [walName id], acc.2.openFile (walName id))) ([], dir)

/-- The body of the loop of `restore_tables`. -/
def restoreWal (dir : WalDir) (acc : Restored) (name : Name) : DbResult Restored := do
  let id ← parseU64 name
  restoreLog acc (id, dir.read name)

/-- `Wal::restore`. -/
def restore (dir : WalDir) : DbResult Restored × WalDir :=
  let (wals, dir) := dir.loadWals
  (wals.foldlM dir.restoreWal ⟨[], 0, 0⟩, dir)

/-- The logs by id. -/
def logs (dir : WalDir) : List LogFile := dir.filterMap fun f => (parseUInt 64 f.1).map fun id => (id, f.2)

/-- The files that are no logs. -/
def others (dir : WalDir) : WalDir := dir.filter fun f => (parseUInt 64 f.1).isNone

end WalDir

/-- `Wal`, with the directory it works on. -/
structure Wal where
  dir : WalDir
  id : ℕ

/-- What is done to the directory. -/
inductive WalAct where
  | newWriter
  | newWriterFails
  /-- the writer of a log writes -/
  | append (id : ℕ) (bytes : Bytes)
  | remove (id : ℕ)
  /-- the process ends, and another one opens the directory -/
  | reopen

namespace Wal

def new (dir : WalDir) : Wal := ⟨dir, dir.latestId + 1⟩

/-- Ids are of type `u64`; the counter is not used up. -/
def step (w : Wal) : WalAct → Option Wal
  | .newWriter =>
    if w.id < 2 ^ 64 then some ⟨w.dir.openFile (walName w.id), w.id + 1⟩ else none
  | .newWriterFails => if w.id < 2 ^ 64 then some { w with id := w.id + 1 } else none
  | .append id bytes =>
    if id < 2 ^ 64 then some { w with dir := w.dir.append (walName id) bytes } else none
  | .remove id => if id < 2 ^ 64 then some { w with dir := w.dir.remove (walName id) } else none
  | .reopen =>
    let w' := Wal.new w.dir
    some { w' with dir := w'.dir.restore.2 }

end Wal

/-- The logs by id, and the counter. -/
structure LogFiles where
  logs : List LogFile
  id : ℕ

/-- The same without names. -/
def LogFiles.step (l : LogFiles) : WalAct → LogFiles
  | .newWriter => ⟨l.logs ++ [(l.id, [])], l.id + 1⟩
  | .newWriterFails => { l with id := l.id + 1 }
  | .append id bytes =>
    { l with logs := l.logs.map fun f => if f.1 = id then (f.1, f.2 ++ bytes) else f }
  | .remove id => { l with logs := l.logs.filter fun f => f.1 ≠ id }
  | .reopen => { l with id := LowDB.latestId l.logs + 1 }

/-! ### Names -/

theorem parseUInt_walName {id : ℕ} (h : id < 2 ^ 64) : parseUInt 64 (walName id) = some id :=
  parseUInt_toDigits h

theorem parseU64_walName {id : ℕ} (h : id < 2 ^ 64) : parseU64 (walName id) = .ok id := by
  rw [parseU64, parseUInt_walName h]

theorem parseUInt_lt {bits n : ℕ} {s : Name} (h : parseUInt bits s = some n) : n < 2 ^ bits := by
  simp only [parseUInt, Option.ite_none_right_eq_some, Option.some.injEq] at h
  exact h.2 ▸ h.1.2.2

namespace WalDir

variable {dir : WalDir} {name : Name} {id : ℕ}

/-- Every file whose name is a number has the name that `new_writer` gives to this number. -/
structure Plain (dir : WalDir) : Prop where
  distinct : dir.names.Nodup
  plain : ∀ name ∈ dir.names, ∀ id, parseUInt 64 name = some id → name = walName id

theorem mem_logs {l : LogFile} : l ∈ dir.logs ↔ ∃ name, (name, l.2) ∈ dir ∧ parseUInt 64 name = some l.1 := by
  unfold logs
  rw [List.mem_filterMap]
  constructor
  · rintro ⟨⟨name, bytes⟩, hf, h⟩
    obtain ⟨id, hid, rfl⟩ := Option.map_eq_some_iff.mp h
    exact ⟨name, hf, hid⟩
  · rintro ⟨name, hf, h⟩
    exact ⟨_, hf, by simp [h]⟩

theorem map_logs (dir : WalDir) : dir.logs.map Prod.fst = dir.names.filterMap (parseUInt 64) := by
  unfold logs names
  rw [List.map_filterMap, List.filterMap_map]
  congr 1
  funext f
  cases h : parseUInt 64 f.1 <;> simp [h]

theorem mem_ids : id ∈ dir.ids ↔ ∃ name ∈ dir.names, parseUInt 64 name = some id := by
  unfold ids
  rw [List.mem_insertionSort, List.mem_filterMap]

/-- The number of a log is that of its name. -/
theorem Plain.eq_walName_iff (h : dir.Plain) (hid : id < 2 ^ 64) (hname : name ∈ dir.names) :
    name = walName id ↔ parseUInt 64 name = some id := by
  constructor
  · rintro rfl
    exact parseUInt_walName hid
  · exact h.plain name hname id

theorem Plain.walName_mem_iff (h : dir.Plain) (hid : id < 2 ^ 64) :
    walName id ∈ dir.names ↔ id ∈ dir.logs.map Prod.fst := by
  rw [map_logs, List.mem_filterMap]
  constructor
  · exact fun hm => ⟨_, hm, parseUInt_walName hid⟩
  · rintro ⟨name, hm, hp⟩
    exact h.plain name hm id hp ▸ hm

theorem Plain.nodup_ids (h : dir.Plain) : (dir.logs.map Prod.fst).Nodup := by
  rw [map_logs]
  refine List.pairwise_filterMap.mpr (h.distinct.imp_of_mem ?_)
  intro name name' hm hm' hne id hp id' hp' he
  exact hne ((h.plain name hm id hp).trans (he ▸ (h.plain name' hm' id' hp').symm))

/-! ### Reading the logs back -/

theorem mem_names_of_logs {l : LogFile} (h : dir.Plain) (hl : l ∈ dir.logs) :
    l.1 < 2 ^ 64 ∧ (walName l.1, l.2) ∈ dir := by
  obtain ⟨name, hf, hp⟩ := mem_logs.mp hl
  have hname := h.plain name (List.mem_map_of_mem hf) l.1 hp
  exact ⟨parseUInt_lt hp, hname ▸ hf⟩

theorem read_of_mem (h : dir.names.Nodup) {bytes : Bytes} (hf : (name, bytes) ∈ dir) :
    dir.read name = bytes := by
  have hfind : dir.find? (fun f => f.1 = name) = some (name, bytes) := by
    obtain ⟨f, hfind⟩ : ∃ f, dir.find? (fun f => f.1 = name) = some f :=
      Option.isSome_iff_exists.mp (List.find?_isSome.mpr ⟨_, hf, by simp⟩)
    have hname : f.1 = name := by simpa using List.find?_some hfind
    rw [hfind, List.inj_on_of_nodup_map h (List.mem_of_find?_eq_some hfind) hf hname]
  rw [read, hfind]
  rfl

theorem openFile_of_mem (h : name ∈ dir.names) : dir.openFile name = dir := if_pos h

/-- Where every number has its file, none is created. -/
theorem loadWals_eq (h : ∀ id ∈ dir.ids, walName id ∈ dir.names) :
    dir.loadWals = (dir.ids.reverse.map walName, dir) := by
  suffices hgen : ∀ (ids : List ℕ) (names : List Name), (∀ id ∈ ids, walName id ∈ dir.names) →
      ids.foldl (fun acc id => (acc.1 ++ [walName id], acc.2.openFile (walName id))) (names, dir) =
        (names ++ ids.map walName, dir) from
    hgen _ [] fun id hid => h id (List.mem_reverse.mp hid)
  intro ids
  induction ids with
  | nil => exact fun names _ => by simp
  | cons id ids ih =>
      intro names hmem
      obtain ⟨hid, hmem⟩ := List.forall_mem_cons.mp hmem
      rw [List.foldl_cons, openFile_of_mem hid, ih _ hmem, List.append_assoc]
      rfl

theorem foldlM_restoreWal {ids : List ℕ} (h : ∀ id ∈ ids, id < 2 ^ 64) (acc : Restored) :
    (ids.map walName).foldlM dir.restoreWal acc =
      (ids.map fun id => (id, dir.read (walName id))).foldlM restoreLog acc := by
  induction ids generalizing acc with
  | nil => rfl
  | cons id ids ih =>
      obtain ⟨hid, hids⟩ := List.forall_mem_cons.mp h
      have hone : dir.restoreWal acc (walName id) = restoreLog acc (id, dir.read (walName id)) := by
        rw [restoreWal, parseU64_walName hid]
        rfl
      rw [List.map_cons, List.map_cons, List.foldlM_cons, List.foldlM_cons, hone]
      congr 1
      funext acc'
      exact ih hids acc'

/-- By name the logs are read in the same order, from the newest. -/
theorem Plain.loadWals_logs (h : dir.Plain) :
    dir.ids.reverse.map (fun id => (id, dir.read (walName id))) = LowDB.loadWals dir.logs := by
  have hid : dir.logs.map (fun l => (l.1, dir.read (walName l.1))) = dir.logs := by
    refine (List.map_congr_left fun l hl => ?_).trans (List.map_id' _)
    rw [read_of_mem h.distinct (mem_names_of_logs h hl).2]
  have hperm : (dir.ids.reverse.map fun id => (id, dir.read (walName id))).Perm dir.logs := by
    have hids : dir.ids.reverse.Perm (dir.logs.map Prod.fst) := by
      rw [map_logs]
      exact (List.reverse_perm _).trans (List.perm_insertionSort _ _)
    have hmap := hids.map fun id => (id, dir.read (walName id))
    rw [List.map_map] at hmap
    exact hmap.trans (List.Perm.of_eq hid)
  have hperm' : (LowDB.loadWals dir.logs).Perm dir.logs := List.perm_insertionSort _ _
  have hsort : (dir.ids.reverse.map fun id => (id, dir.read (walName id))).Pairwise
      fun a b => b.1 ≤ a.1 := by
    rw [List.pairwise_map, List.pairwise_reverse]
    exact List.pairwise_insertionSort _ _
  refine List.Perm.eq_of_pairwise (fun a b ha hb hab hba => ?_) hsort (List.pairwise_insertionSort _ _)
    (hperm.trans hperm'.symm)
  exact List.inj_on_of_nodup_map h.nodup_ids (hperm.subset ha) (hperm'.subset hb) (le_antisymm hba hab)

/-- `Wal::restore` reads the logs and creates nothing. -/
theorem Plain.restore_eq (h : dir.Plain) : dir.restore = (LowDB.restore dir.logs, dir) := by
  have hmem : ∀ id ∈ dir.ids, id < 2 ^ 64 ∧ walName id ∈ dir.names := by
    intro id hid
    obtain ⟨name, hname, hp⟩ := mem_ids.mp hid
    exact ⟨parseUInt_lt hp, h.plain name hname id hp ▸ hname⟩
  have hlt : ∀ id ∈ dir.ids.reverse, id < 2 ^ 64 := fun id hid => (hmem id (List.mem_reverse.mp hid)).1
  simp only [restore, loadWals_eq fun id hid => (hmem id hid).2, foldlM_restoreWal hlt, h.loadWals_logs]
  rfl

theorem foldr_max_of_pairwise {ids : List ℕ} (h : ids.Pairwise (· ≤ ·)) :
    ids.foldr max 0 = ids.getLast?.getD 0 := by
  induction ids with
  | nil => rfl
  | cons id ids ih =>
      obtain ⟨hid, h⟩ := List.pairwise_cons.mp h
      rw [List.foldr_cons, ih h]
      cases hlast : ids.getLast? with
      | none => simp [List.getLast?_eq_none_iff.mp hlast]
      | some last =>
          have hle := hid last (List.mem_of_getLast? hlast)
          simp [List.getLast?_cons, hlast, hle]

theorem latestId_eq (dir : WalDir) : dir.latestId = LowDB.latestId dir.logs := by
  have hsort : dir.ids.Pairwise (· ≤ ·) := List.pairwise_insertionSort _ _
  have hperm : dir.ids.Perm (dir.names.filterMap (parseUInt 64)) := List.perm_insertionSort _ _
  rw [latestId, ← foldr_max_of_pairwise hsort, LowDB.latestId, map_logs]
  exact hperm.foldr_eq 0

/-! ### Changes -/

/-- A new file with the name of a log. -/
theorem Plain.openFile (h : dir.Plain) (hid : id < 2 ^ 64) (hfresh : ∀ l ∈ dir.logs, l.1 < id) :
    walName id ∉ dir.names ∧ (dir.openFile (walName id)).Plain ∧
      (dir.openFile (walName id)).logs = dir.logs ++ [(id, [])] ∧
      (dir.openFile (walName id)).others = dir.others := by
  have hnew : walName id ∉ dir.names := by
    rw [h.walName_mem_iff hid]
    intro hm
    obtain ⟨l, hl, rfl⟩ := List.mem_map.mp hm
    exact lt_irrefl _ (hfresh l hl)
  have hopen : dir.openFile (walName id) = dir ++ [(walName id, [])] := if_neg hnew
  have hp := parseUInt_walName hid
  have hnames : (dir.openFile (walName id)).names = dir.names ++ [walName id] := by
    rw [hopen, names, List.map_append]
    rfl
  refine ⟨hnew, ⟨?_, ?_⟩, ?_, ?_⟩
  · rw [hnames]
    exact h.distinct.append (List.nodup_singleton _) (by simpa using hnew)
  · rw [hnames]
    intro name hm id' hp'
    rcases List.mem_append.mp hm with hm | hm
    · exact h.plain name hm id' hp'
    · rw [List.mem_singleton.mp hm, hp] at hp'
      rw [List.mem_singleton.mp hm, Option.some.inj hp']
  · rw [hopen, logs, List.filterMap_append, ← logs]
    simp [hp]
  · rw [hopen, others, List.filter_append, ← others]
    simp [hp]

/-- To change the bytes of the log with an id. -/
theorem Plain.append (h : dir.Plain) (hid : id < 2 ^ 64) (bytes : Bytes) :
    (dir.append (walName id) bytes).Plain ∧
      (dir.append (walName id) bytes).logs =
        dir.logs.map (fun f => if f.1 = id then (f.1, f.2 ++ bytes) else f) ∧
      (dir.append (walName id) bytes).others = dir.others := by
  have hnames : (dir.append (walName id) bytes).names = dir.names := by
    unfold WalDir.append names
    rw [List.map_map]
    apply List.map_congr_left
    intro f _
    simp only [Function.comp]
    split_ifs <;> rfl
  refine ⟨⟨hnames ▸ h.distinct, hnames ▸ h.plain⟩, ?_, ?_⟩
  · unfold WalDir.append logs
    rw [List.filterMap_map, List.map_filterMap]
    apply List.filterMap_congr
    intro f hf
    have hiff := h.eq_walName_iff hid (List.mem_map_of_mem hf)
    simp only [Function.comp]
    by_cases he : f.1 = walName id
    · simp [if_pos he, hiff.mp he]
    · rw [if_neg he]
      cases hp : parseUInt 64 f.1 with
      | none => rfl
      | some id' =>
          have hne : id' ≠ id := fun hi => he (hiff.mpr (hi ▸ hp))
          simp [hne]
  · unfold WalDir.append others
    rw [List.filter_map]
    have hname : (fun f : Name × Bytes => (parseUInt 64 f.1).isNone) ∘
        (fun f => if f.1 = walName id then (f.1, f.2 ++ bytes) else f) =
          fun f => (parseUInt 64 f.1).isNone := by
      funext f
      simp only [Function.comp]
      split_ifs <;> rfl
    rw [hname]
    refine (List.map_congr_left fun f hf => if_neg ?_).trans (List.map_id' _)
    intro he
    have hnone := (List.mem_filter.mp hf).2
    rw [he, parseUInt_walName hid] at hnone
    cases hnone

/-- To remove the log with an id. -/
theorem Plain.remove (h : dir.Plain) (hid : id < 2 ^ 64) :
    (dir.remove (walName id)).Plain ∧
      (dir.remove (walName id)).logs = dir.logs.filter (fun f => f.1 ≠ id) ∧
      (dir.remove (walName id)).others = dir.others := by
  refine ⟨⟨?_, ?_⟩, ?_, ?_⟩
  · exact (List.filter_sublist.map Prod.fst).nodup h.distinct
  · exact fun name hm => h.plain name ((List.filter_sublist.map Prod.fst).subset hm)
  · unfold WalDir.remove logs
    rw [List.filterMap_filter, List.filter_filterMap]
    apply List.filterMap_congr
    intro f hf
    have hiff := h.eq_walName_iff hid (List.mem_map_of_mem hf)
    by_cases he : f.1 = walName id
    · simp [he, parseUInt_walName hid, Option.filter]
    · cases hp : parseUInt 64 f.1 with
      | none => simp
      | some id' =>
          have hne : id' ≠ id := fun hi => he (hiff.mpr (hi ▸ hp))
          simp [he, hne, Option.filter]
  · unfold WalDir.remove others
    rw [List.filter_filter]
    apply List.filter_congr
    intro f _
    by_cases he : f.1 = walName id
    · simp [he, parseUInt_walName hid]
    · simp [he]

end WalDir

/-! ### Runs -/

namespace Wal

/-- What holds of the manager and its directory. -/
structure Inv (others : WalDir) (w : Wal) : Prop where
  plain : w.dir.Plain
  fresh : ∀ l ∈ w.dir.logs, l.1 < w.id
  others : w.dir.others = others

variable {others : WalDir} {w w' : Wal} {a : WalAct}

theorem inv_new {dir : WalDir} (h : dir.Plain) : Inv dir.others (Wal.new dir) := by
  refine ⟨h, fun l hl => ?_, rfl⟩
  have hle : l.1 ≤ latestId dir.logs := le_latestId hl
  rw [← WalDir.latestId_eq] at hle
  exact Nat.lt_succ_of_le hle

theorem Inv.step (h : Inv others w) (hs : w.step a = some w') :
    Inv others w' ∧ LogFiles.step ⟨w.dir.logs, w.id⟩ a = ⟨w'.dir.logs, w'.id⟩ ∧
      (a = .newWriter → walName w.id ∉ w.dir.names) := by
  cases a with
  | newWriter =>
      simp only [Wal.step, Option.ite_none_right_eq_some, Option.some.injEq] at hs
      obtain ⟨hid, rfl⟩ := hs
      obtain ⟨hnew, hplain, hlogs, hothers⟩ := h.plain.openFile hid h.fresh
      refine ⟨⟨hplain, ?_, hothers.trans h.others⟩, ?_, fun _ => hnew⟩
      · intro l hl
        rw [hlogs] at hl
        rcases List.mem_append.mp hl with hl | hl
        · exact Nat.lt_succ_of_lt (h.fresh l hl)
        · rw [List.mem_singleton.mp hl]
          exact Nat.lt_succ_self _
      · rw [LogFiles.step, hlogs]
  | newWriterFails =>
      simp only [Wal.step, Option.ite_none_right_eq_some, Option.some.injEq] at hs
      obtain ⟨-, rfl⟩ := hs
      exact ⟨⟨h.plain, fun l hl => Nat.lt_succ_of_lt (h.fresh l hl), h.others⟩, rfl,
        fun ha => nomatch ha⟩
  | append id bytes =>
      simp only [Wal.step, Option.ite_none_right_eq_some, Option.some.injEq] at hs
      obtain ⟨hid, rfl⟩ := hs
      obtain ⟨hplain, hlogs, hothers⟩ := h.plain.append hid bytes
      refine ⟨⟨hplain, ?_, hothers.trans h.others⟩, ?_, fun ha => nomatch ha⟩
      · intro l hl
        rw [hlogs] at hl
        obtain ⟨l', hl', rfl⟩ := List.mem_map.mp hl
        have hlt := h.fresh l' hl'
        split_ifs
        · exact hlt
        · exact hlt
      · rw [LogFiles.step, hlogs]
  | remove id =>
      simp only [Wal.step, Option.ite_none_right_eq_some, Option.some.injEq] at hs
      obtain ⟨hid, rfl⟩ := hs
      obtain ⟨hplain, hlogs, hothers⟩ := h.plain.remove hid
      refine ⟨⟨hplain, ?_, hothers.trans h.others⟩, ?_, fun ha => nomatch ha⟩
      · intro l hl
        rw [hlogs] at hl
        exact h.fresh l (List.mem_filter.mp hl).1
      · rw [LogFiles.step, hlogs]
  | reopen =>
      have hdir : (Wal.new w.dir).dir.restore.2 = w.dir := congrArg Prod.snd h.plain.restore_eq
      cases hs
      have hw : ({ Wal.new w.dir with dir := (Wal.new w.dir).dir.restore.2 } : Wal) = Wal.new w.dir := by
        rw [hdir]
        rfl
      rw [hw]
      refine ⟨h.others ▸ inv_new h.plain, ?_, fun ha => nomatch ha⟩
      rw [LogFiles.step, Wal.new, WalDir.latestId_eq]

end Wal

/-- **Logs by name**: in a directory where every file whose name is a number has the name that
`new_writer` gives, and after any new logs, writes, removals and reopenings, the files are logs by id and
have gone through the same steps without names; the next log takes a name that no file has, the other
files are as they were, and `restore` returns what it returns by id and creates no file. -/
theorem run_logs {dir : WalDir} (h : dir.Plain) {acts : List WalAct} {w : Wal}
    (hrun : acts.foldlM Wal.step (Wal.new dir) = some w) :
    w.dir.Plain ∧ acts.foldl LogFiles.step ⟨dir.logs, latestId dir.logs + 1⟩ = ⟨w.dir.logs, w.id⟩ ∧
      (w.id < 2 ^ 64 → walName w.id ∉ w.dir.names) ∧ w.dir.others = dir.others ∧
      w.dir.restore = (restore w.dir.logs, w.dir) := by
  suffices hgen : ∀ w₀ : Wal, w₀.Inv dir.others → acts.foldlM Wal.step w₀ = some w →
      w.Inv dir.others ∧ acts.foldl LogFiles.step ⟨w₀.dir.logs, w₀.id⟩ = ⟨w.dir.logs, w.id⟩ by
    obtain ⟨hw, hlogs⟩ := hgen _ (Wal.inv_new h) hrun
    refine ⟨hw.plain, WalDir.latestId_eq dir ▸ hlogs, fun hid => ?_, hw.others, hw.plain.restore_eq⟩
    exact (hw.plain.openFile hid hw.fresh).1
  clear hrun
  induction acts with
  | nil =>
      intro w₀ h₀ hrun
      cases hrun
      exact ⟨h₀, rfl⟩
  | cons a acts ih =>
      intro w₀ h₀ hrun
      rw [List.foldlM_cons] at hrun
      obtain ⟨w₁, hw₁, hrun⟩ := Option.bind_eq_some_iff.mp hrun
      obtain ⟨h₁, hstep, -⟩ := h₀.step hw₁
      rw [List.foldl_cons, hstep]
      exact ih w₁ h₁ hrun

/-- A directory with the log 7 and another file. -/
def oneLog : WalDir := [("7".toList, [0]), ("3.tmp".toList, [1])]

theorem run_logs_oneLog :
    ∃ w, [WalAct.newWriter, .append 8 [2], .remove 7, .reopen].foldlM Wal.step (Wal.new oneLog) = some w ∧
      w.dir.logs = [(8, [2])] ∧ w.dir.others = [("3.tmp".toList, [1])] ∧ walName 9 ∉ w.dir.names := by
  have hplain : oneLog.Plain := by
    refine ⟨by decide, fun name hm id hp => ?_⟩
    have hname : name = "7".toList ∨ name = "3.tmp".toList := by simpa [oneLog, WalDir.names] using hm
    rcases hname with rfl | rfl
    · have hseven : parseUInt 64 "7".toList = some 7 := by decide
      rw [← Option.some.inj (hseven.symm.trans hp)]
      decide
    · have hnone : parseUInt 64 "3.tmp".toList = none := by decide
      exact nomatch hnone.symm.trans hp
  have h : ([WalAct.newWriter, .append 8 [2], .remove 7, .reopen].foldlM Wal.step
      (Wal.new oneLog)).map (fun w => (w.dir.logs, w.id)) = some ([(8, [2])], 9) := by decide +kernel
  obtain ⟨w, hw, hl⟩ := Option.map_eq_some_iff.mp h
  obtain ⟨-, -, hfree, ho, -⟩ := run_logs hplain hw
  have hid : w.id = 9 := congrArg Prod.snd hl
  exact ⟨w, hw, congrArg Prod.fst hl, ho.trans (by decide), hid ▸ hfree (by rw [hid]; decide)⟩

end LowDB
