import LowDB.Sstable.Compaction
import LowDB.Engine.System

/-! # Reading a compacted store

A run of tables that stand next to each other in the search order of `DiskStorage::get_snap` is given
to `compact`, and the output takes its place.  The main result, `compact_search_iff`, says which reads
stay the same.  With tables above and below the run, a read of `u` at `s` is unchanged exactly if
a table above answers it, or the newest version of `u` in the run is no newer than `s` and is written
to the output, or the read would be the same if the run were not there at all.

So a deletion that the compaction leaves out must have nothing below it to hide (the deletion of the
greatest user key is never left out), and no snapshot may be older than a version that is replaced. -/

namespace LowDB

open Layered

/-! ### The newest version in a run -/

/-- The version of `u` with the greatest sequence number up to `s` over all inputs, the first one among
equals. -/
def newestAt (ls : List (List Entry)) (u : Str) (s : ℕ) : Option Entry :=
  ls.flatten.find? fun e => e.1.user = u ∧ e.1.seq.toNat ≤ s ∧
    ∀ x ∈ ls.flatten, x.1.user = u → x.1.seq.toNat ≤ s → x.1.seq.toNat ≤ e.1.seq.toNat

section newest
variable {l : List Entry} {ls : List (List Entry)} {u : Str} {s : ℕ} {w : Entry}

/-- A snapshot that sees the newest version of all reads it. -/
theorem newestAt_of_winner (h : winner ls u = some w) (hs : w.1.seq.toNat ≤ s) :
    newestAt ls u s = some w := by
  obtain ⟨hw, pre, post, hflat, hpre⟩ := List.find?_eq_some_iff_append.mp h
  rw [decide_eq_true_eq] at hw
  refine List.find?_eq_some_iff_append.mpr ⟨?_, pre, post, hflat, fun e he => ?_⟩
  · rw [decide_eq_true_eq]
    exact ⟨hw.1, hs, fun x hx hxu _ => hw.2 x hx hxu⟩
  · have hne := hpre e he
    simp only [Bool.not_eq_true', decide_eq_false_iff_not] at hne ⊢
    rintro ⟨hu, -, hmax⟩
    exact hne ⟨hu, fun x hx hxu => hmax x hx hxu ((hw.2 x hx hxu).trans hs)⟩

/-- With an input in front that lies over the others: its own newest version, if it has one. -/
theorem newestAt_cons (hl : l.Pairwise fun a b => a.1 ≤ b.1)
    (hover : ∀ l' ∈ ls, Over (layer l) (layer l')) :
    newestAt (l :: ls) u s = (entryAt l u s).or (newestAt ls u s) := by
  rcases entryAt_newest hl u s with ⟨hnone, ha⟩ | ⟨x, hx, hu, hs, hmax, ha⟩
  · -- the entries of `l` are no candidates, and bound no candidate
    rw [ha, Option.none_or, newestAt, List.flatten_cons, List.find?_append, List.find?_eq_none.mpr,
      Option.none_or, newestAt]
    · congr 1
      funext e
      rw [decide_eq_decide]
      refine and_congr_right fun _ => and_congr_right fun _ => ?_
      rw [List.forall_mem_append]
      exact and_iff_right fun y hy hyu hys => absurd hys (hnone y hy hyu).not_ge
    · intro e he
      rw [decide_eq_true_eq]
      exact fun h => absurd h.2.1 (hnone e he h.1).not_ge
  · have hfind : l.find? (fun e => ¬ e.1.before u s) = some x := by
      unfold entryAt at ha
      exact (Option.filter_eq_some_iff.mp ha).1
    obtain ⟨-, pre, post, hl', hpre⟩ := List.find?_eq_some_iff_append.mp hfind
    rw [ha, Option.some_or, newestAt, List.flatten_cons]
    refine List.find?_eq_some_iff_append.mpr ⟨?_, pre, post ++ ls.flatten, by simp [hl'], ?_⟩
    · rw [decide_eq_true_eq]
      refine ⟨hu, hs, fun y hy hyu hys => ?_⟩
      rcases List.mem_append.mp hy with hy | hy
      · exact hmax y hy hyu hys
      · obtain ⟨l', hl', hy⟩ := List.mem_flatten.mp hy
        rcases hover l' hl' u y.1.seq.toNat x.1.seq.toNat (holds_layer_iff.mpr ⟨y, hy, hyu, rfl⟩)
          (holds_layer_iff.mpr ⟨x, hx, hu, rfl⟩) with hle | hh
        · exact hle
        · obtain ⟨z, hz, hzu, hzs⟩ := holds_layer_iff.mp hh
          exact hzs ▸ hmax z hz hzu (hzs ▸ hys)
    · -- what stands before `x` is of a smaller user key or too new
      intro e he
      have hb : e.1.before u s := by simpa using hpre e he
      simp only [Bool.not_eq_true', decide_eq_false_iff_not]
      rintro ⟨heu, hes, -⟩
      rcases hb with hb | ⟨-, hb⟩
      · exact absurd (heu ▸ hb) (lt_irrefl _)
      · omega

end newest

/-! ### The tables in search order -/

/-- The table is that of a finished writer. -/
def Table.Finished [Crc32] (t : Table) : Prop :=
  writeTable t.entries = .ok (some (t.sst.file, t.sst.tableMeta)) ∧ t.sst.file.length < 2 ^ 64

/-- The open table that the output of a writer with the entries `es` makes, if there is one. -/
def outputTables (es : List Entry) : Option (Bytes × SSTableMeta) → List Table
  | none => []
  | some (file, m) => [⟨⟨file, m⟩, es⟩]

/-- What the inputs yield when they are scanned. -/
def storedRuns (ts : List Table) : List (List Entry) := ts.map fun t => t.entries.map Entry.stored

section code
variable [Crc32] {ts ts' : List Table} {u : Str} {s : ℕ} {l : Lookup}

open DiskStorage

theorem searchTables_append :
    searchTables u s (ts ++ ts') = (searchTables u s ts >>= fun
      | .absent => searchTables u s ts'
      | l => .ok l) := by
  induction ts with
  | nil => rfl
  | cons t ts ih =>
      rw [List.cons_append, searchTables, searchTables]
      cases t.sst.get u s with
      | error e => rfl
      | ok l =>
          cases l with
          | absent => exact ih
          | found v => rfl
          | deleted => rfl

theorem searchTables_append_of_absent (h : searchTables u s ts = .ok .absent) :
    searchTables u s (ts ++ ts') = searchTables u s ts' := by
  rw [searchTables_append, h]
  rfl

/-- What lies behind an answer, or behind a table that cannot be read, is not looked at. -/
theorem searchTables_append_of_ne (h : searchTables u s ts ≠ .ok .absent) :
    searchTables u s (ts ++ ts') = searchTables u s ts := by
  rw [searchTables_append]
  cases hs : searchTables u s ts with
  | error e => rfl
  | ok l =>
      cases l with
      | absent => exact absurd hs h
      | found v => rfl
      | deleted => rfl

/-- A lookup in tables of which each lies over those behind it finds the newest version. -/
theorem searchTables_newestAt (h : ∀ t ∈ ts, t.Finished)
    (hover : (ts.map fun t => layer t.entries).Pairwise Over) :
    searchTables u s ts =
      .ok (((newestAt (storedRuns ts) u s).map fun e => Lookup.ofValue e.2).getD .absent) := by
  induction ts with
  | nil => rfl
  | cons t ts ih =>
      obtain ⟨hw, -⟩ := h t List.mem_cons_self
      obtain ⟨ht, hts⟩ := List.pairwise_cons.mp hover
      have hget : t.sst.get u s = .ok (lookupIn (t.entries.map Entry.stored) u s) :=
        (written_get hw u s).1
      have hsort : (t.entries.map Entry.stored).Pairwise fun a b => a.1 ≤ b.1 :=
        List.pairwise_map.mpr (writeTable_some hw).1
      have hfront : ∀ l' ∈ storedRuns ts, Over (layer (t.entries.map Entry.stored)) (layer l') := by
        intro l' hl'
        obtain ⟨t', ht', rfl⟩ := List.mem_map.mp hl'
        rw [layer_map_stored, layer_map_stored]
        exact ht _ (List.mem_map_of_mem ht')
      have hruns : storedRuns (t :: ts) = t.entries.map Entry.stored :: storedRuns ts := rfl
      rw [searchTables, hget, hruns, newestAt_cons hsort hfront, lookupIn_eq]
      cases entryAt (t.entries.map Entry.stored) u s with
      | none => exact ih (fun t' ht' => h t' (List.mem_cons_of_mem _ ht')) hts
      | some e =>
          obtain ⟨k, v⟩ := e
          cases v with
          | set v => rfl
          | delete => rfl

/-! ### The output in place of its inputs -/

/-- The compaction of `ls` writes `w`: it is no deletion, or of the greatest user key. -/
def Survives (ls : List (List Entry)) (w : Entry) : Prop :=
  w.2 ≠ .delete ∨ ∀ x ∈ ls.flatten, x.1.user ≤ w.1.user

/-- The output answers with the newest version of `u` over all inputs if that is written and no newer
than `s`, and otherwise not. -/
theorem searchTables_output {ls : List (List Entry)} {es : List Entry}
    {r : Option (Bytes × SSTableMeta)} (hw : writeTable es = .ok r)
    (hasc : es.Pairwise fun a b => a.1.user < b.1.user)
    (hmem : ∀ e, e ∈ es ↔ winner ls e.1.user = some e ∧ Survives ls e) :
    (∃ w, winner ls u = some w ∧ w.1.seq.toNat ≤ s ∧ Survives ls w ∧
        searchTables u s (outputTables es r) = .ok (.ofValue w.2.stored)) ∨
      (¬ ∃ w, winner ls u = some w ∧ w.1.seq.toNat ≤ s ∧ Survives ls w) ∧
        searchTables u s (outputTables es r) = .ok .absent := by
  have huser : ∀ w, winner ls u = some w → w.1.user = u := by
    intro w h
    have := List.find?_some h
    simp only [decide_eq_true_eq] at this
    exact this.1
  cases r with
  | none =>
      obtain rfl := writeTable_none hw
      refine .inr ⟨?_, rfl⟩
      rintro ⟨w, h, -, hwr⟩
      exact absurd ((hmem w).mpr ⟨huser w h ▸ h, hwr⟩) List.not_mem_nil
  | some r =>
      obtain ⟨file, m⟩ := r
      obtain ⟨hget, hnew⟩ := written_get hw u s
      have hsearch : ∀ l, lookupIn (es.map Entry.stored) u s = l →
          searchTables u s (outputTables es (some (file, m))) = .ok l := by
        rintro l rfl
        rw [outputTables, searchTables, hget]
        cases lookupIn (es.map Entry.stored) u s <;> rfl
      rcases hnew with ⟨hnone, hl⟩ | ⟨x, hx, hxu, hxs, -, hl⟩
      · refine .inr ⟨?_, hsearch _ hl⟩
        rintro ⟨w, h, hs, hwr⟩
        have hwu := huser w h
        exact absurd hs (hnone w ((hmem w).mpr ⟨hwu ▸ h, hwr⟩) hwu).not_ge
      · obtain ⟨hxw, hwr⟩ := (hmem x).mp hx
        exact .inl ⟨x, hxu ▸ hxw, hxs, hwr, hsearch _ hl⟩

/-- Scans of the tables of a run. -/
theorem scans_storedRuns {scans : List TableScan} (h : ∀ t ∈ ts, t.Finished)
    (hscan : List.Forall₂ (fun t scan => TableScan.open t.sst.file = .ok scan) ts scans) :
    List.Forall₂ Scans scans (storedRuns ts) := by
  induction hscan with
  | nil => exact .nil
  | @cons t scan ts scans ho _ ih =>
      obtain ⟨hw, hlen⟩ := h t List.mem_cons_self
      exact .cons ⟨_, _, _, hw, hlen, ho, rfl⟩ (ih fun t' ht' => h t' (List.mem_cons_of_mem _ ht'))

omit [Crc32] in
/-- A scan yields no empty text. -/
theorem stored_of_mem {w : Entry} (h : w ∈ (storedRuns ts).flatten) : w.2.stored = w.2 := by
  obtain ⟨es, hes, hw⟩ := List.mem_flatten.mp h
  obtain ⟨t, -, rfl⟩ := List.mem_map.mp hes
  obtain ⟨e, -, rfl⟩ := List.mem_map.mp hw
  exact Value.stored_stored e.2

/-- **Compaction of a run**: with tables above and below, the output in place of the run changes
a read exactly if no table above answers, the newest version of the user key in the run is too
new or left out, and the run would be missed. -/
theorem compact_search_iff {above below : List Table} {scans : List TableScan}
    {r : Option (Bytes × SSTableMeta)} (h : ∀ t ∈ ts, t.Finished)
    (hover : (ts.map fun t => layer t.entries).Pairwise Over)
    (hscan : List.Forall₂ (fun t scan => TableScan.open t.sst.file = .ok scan) ts scans)
    (hr : compact scans = .ok r) :
    ∃ es, writeTable es = .ok r ∧ ∀ u s,
      ((searchTables u s (above ++ (outputTables es r ++ below))).map Lookup.value =
          (searchTables u s (above ++ (ts ++ below))).map Lookup.value ↔
        searchTables u s above ≠ .ok .absent ∨
        (∃ w, winner (storedRuns ts) u = some w ∧ w.1.seq.toNat ≤ s ∧
          Survives (storedRuns ts) w) ∨
        (searchTables u s below).map Lookup.value =
          (searchTables u s (ts ++ below)).map Lookup.value) := by
  obtain ⟨es, hes, hasc, hmem⟩ := compact_entries (scans_storedRuns h hscan)
  rw [hr] at hes
  refine ⟨es, hes.symm, fun u s => ?_⟩
  by_cases ha : searchTables u s above = .ok .absent
  · rw [searchTables_append_of_absent ha, searchTables_append_of_absent ha]
    rcases searchTables_output hes.symm hasc hmem with ⟨w, hw, hs, hwr, hout⟩ | ⟨hnot, hout⟩
    · refine iff_of_true ?_ (.inr (.inl ⟨w, hw, hs, hwr⟩))
      have hin : searchTables u s ts = .ok (.ofValue w.2.stored) := by
        rw [searchTables_newestAt h hover, newestAt_of_winner hw hs,
          stored_of_mem (List.mem_of_find?_eq_some hw)]
        rfl
      rw [searchTables_append, hout, searchTables_append, hin]
    · rw [searchTables_append_of_absent hout]
      simp [ha, hnot]
  · rw [searchTables_append_of_ne ha, searchTables_append_of_ne ha]
    simp [ha]

end code

/-- The finished table with these entries, and a scan of it. -/
def finishedTable (es : List Entry) : Option (Table × TableScan) :=
  match @writeTable crc32 es with
  | .ok (some (file, m)) =>
    if file.length < 2 ^ 64 then
      match TableScan.open file with
      | .ok t => some (⟨⟨file, m⟩, es⟩, t)
      | .error _ => none
    else none
  | _ => none

theorem finished_of_finishedTable {es : List Entry} {t : Table} {scan : TableScan}
    (h : finishedTable es = some (t, scan)) :
    t.entries = es ∧ @Table.Finished crc32 t ∧ TableScan.open t.sst.file = .ok scan := by
  unfold finishedTable at h
  split at h
  case h_1 file m hw =>
    split_ifs at h with hlen
    split at h
    case h_1 ho =>
      cases h
      exact ⟨rfl, ⟨hw, hlen⟩, ho⟩
    case h_2 => cases h
  case h_2 => cases h

/-- A deletion in front of the version that it hides. -/
def deletion : List Entry := [(⟨.ascii [0x6a], 2⟩, .delete)]

def hidden : List Entry :=
  [(⟨.ascii [0x6a], 1⟩, .set (.ascii [0x76])), (⟨.ascii [0x6b], 1⟩, .set (.ascii [0x76]))]

theorem over_deletion_hidden : Over (layer deletion) (layer hidden) := by
  intro k n m hn hm
  obtain ⟨e, he, -, rfl⟩ := holds_layer_iff.mp hn
  obtain ⟨x, hx, -, rfl⟩ := holds_layer_iff.mp hm
  have hle : ∀ e ∈ hidden, ∀ x ∈ deletion, e.1.seq.toNat ≤ x.1.seq.toNat := by decide
  exact .inl (hle e he x hx)

/-- Both tables and what their compaction returns. -/
def compactHidden :
    Option ((Table × TableScan) × (Table × TableScan) × Option (Bytes × SSTableMeta)) := do
  let front ← finishedTable deletion
  let back ← finishedTable hidden
  match @compact crc32 [front.2, back.2] with
  | .ok r => return (front, back, r)
  | .error _ => none

/-- The deletion is left out with the version below it. -/
theorem compact_search_iff_hidden :
    ∃ front back r es, front.entries = deletion ∧ back.entries = hidden ∧
      @writeTable crc32 es = .ok r ∧ ∀ u s,
        ((@DiskStorage.searchTables crc32 u s ([] ++ (outputTables es r ++ []))).map Lookup.value =
            (@DiskStorage.searchTables crc32 u s ([] ++ ([front, back] ++ []))).map Lookup.value ↔
          @DiskStorage.searchTables crc32 u s [] ≠ .ok .absent ∨
          (∃ w, winner (storedRuns [front, back]) u = some w ∧ w.1.seq.toNat ≤ s ∧
            Survives (storedRuns [front, back]) w) ∨
          (@DiskStorage.searchTables crc32 u s []).map Lookup.value =
            (@DiskStorage.searchTables crc32 u s ([front, back] ++ [])).map Lookup.value) := by
  have h : compactHidden.isSome := by decide +kernel
  obtain ⟨⟨⟨front, scan⟩, ⟨back, scan'⟩, r⟩, h⟩ := Option.isSome_iff_exists.mp h
  unfold compactHidden at h
  simp only [bind, Option.bind_eq_some_iff] at h
  obtain ⟨_, hfront, _, hback, h⟩ := h
  split at h
  case h_1 hr =>
    cases h
    obtain ⟨hf, hfin, ho⟩ := finished_of_finishedTable hfront
    obtain ⟨hb, hfin', ho'⟩ := finished_of_finishedTable hback
    have hover : ([front, back].map fun t => layer t.entries).Pairwise Over := by
      simp [hf, hb, over_deletion_hidden]
    obtain ⟨es, hes, hiff⟩ := @compact_search_iff crc32 [front, back] [] [] [scan, scan'] r
      (by simp [hfin, hfin']) hover (.cons ho (.cons ho' .nil)) hr
    exact ⟨front, back, r, es, hf, hb, hes, hiff⟩
  case h_2 => cases h

end LowDB
