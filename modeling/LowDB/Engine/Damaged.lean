import LowDB.Engine.Compacted
import LowDB.Sstable.Damage
import LowDB.Storage.PowerFailures

/-! # A damaged store

The tables of a store are damaged in some of their blocks and the store is opened again.  A table whose
first key was made greater than `u` is passed over by the lookup of `u` (`Table.Blind`).  The main result,
`load_damaged`: the lookup fails exactly if it comes to a spoiled block, and otherwise answers as the store
before the damage would without the blind tables.  So a version that was replaced or deleted can come
back. -/

namespace LowDB

open DiskStorage

section damaged
variable [Crc32]

/-- The file `file'` is `file`, of the table with the metadata `m`, with some of its blocks spoiled. -/
structure SSTableMeta.Damaged (m : SSTableMeta) (file file' : Bytes) : Prop where
  index : (m.index.flatMap IndexedKey.bytes).length < 2 ^ 32
  length : file'.length = file.length
  rest : file'.drop m.footer.bloomOff = file.drop m.footer.bloomOff
  blocks : ∀ x ∈ m.index, x.slice file' = x.slice file ∨ Spoiled (x.slice file) (x.slice file')

/-- The table `t'` is `t` with some of its blocks spoiled, opened again. -/
structure Table.Damaged (t t' : Table) : Prop where
  finished : t.Finished
  file : t.sst.tableMeta.Damaged t.sst.file t'.sst.file
  opened : SSTableMeta.read t'.sst.file = .ok t'.sst.tableMeta

/-- The first key as it was read is greater than `u`. -/
abbrev Table.Blind (t' : Table) (u : Str) : Prop := u < t'.sst.tableMeta.firstKey.user

/-- The lookup is led to a block that is not as it was. -/
def Table.Hits (t t' : Table) (u : Str) (s : ℕ) : Prop :=
  ¬ t'.Blind u ∧ ∃ x, t'.sst.tableMeta.handleFor u s = some x ∧ x.slice t'.sst.file ≠ x.slice t.sst.file

/-- The tables before the damage, without those that are blind after it. -/
def seen (ps : List (Table × Table)) (u : Str) : List Table :=
  (ps.filter fun p => ¬ p.2.Blind u).map Prod.fst

variable {t t' : Table} {u : Str} {s : ℕ} {p : Table × Table} {ps : List (Table × Table)}

namespace Table.Damaged

theorem get_blind (hu : t'.Blind u) : t'.sst.get u s = .ok .absent :=
  get_of_handleFor_none (if_pos (.inl hu))

theorem get_eq (hcrc : ∀ bs, Crc32.hash bs = crc32.hash bs) (h : t.Damaged t') (hu : ¬ t'.Blind u) :
    t'.sst.get u s =
      if ∃ x, t'.sst.tableMeta.handleFor u s = some x ∧ x.slice t'.sst.file ≠ x.slice t.sst.file then
        .error (.invalidState "block corrupted")
      else t.sst.get u s := by
  obtain ⟨⟨hw, -⟩, ⟨hidx, hlen, hrest, hs⟩, hopen⟩ := h
  obtain ⟨⟨file, m⟩, es⟩ := t
  obtain ⟨⟨file', m'⟩, es'⟩ := t'
  obtain ⟨hsort, b, rfl, rfl, rfl⟩ := writeTable_some hw
  have hget := b.get_reopened (u := u) (s := s) hcrc hsort hidx hlen hrest hs hopen
  rw [if_neg hu] at hget
  exact hget

theorem get_hits (hcrc : ∀ bs, Crc32.hash bs = crc32.hash bs) (h : t.Damaged t')
    (hh : t.Hits t' u s) : t'.sst.get u s = .error (.invalidState "block corrupted") := by
  rw [h.get_eq hcrc hh.1, if_pos hh.2]

theorem get_same (hcrc : ∀ bs, Crc32.hash bs = crc32.hash bs) (h : t.Damaged t') (hu : ¬ t'.Blind u)
    (hh : ¬ t.Hits t' u s) : t'.sst.get u s = t.sst.get u s := by
  rw [h.get_eq hcrc hu, if_neg fun hx => hh ⟨hu, hx⟩]

end Table.Damaged

/-- The lookup is led to a block that is not as it was, and the tables in front do not answer. -/
def Comes (ps : List (Table × Table)) (u : Str) (s : ℕ) : Prop :=
  ∃ pre p post, ps = pre ++ p :: post ∧ (∀ q ∈ pre, ¬ q.1.Hits q.2 u s) ∧
    searchTables u s (seen pre u) = .ok .absent ∧ p.1.Hits p.2 u s

omit [Crc32] in
theorem seen_cons (p : Table × Table) (ps : List (Table × Table)) (u : Str) :
    seen (p :: ps) u = seen [p] u ++ seen ps u := by
  rw [seen, ← List.singleton_append, List.filter_append, List.map_append, seen, seen]

omit [Crc32] in
theorem seen_blind (h : p.2.Blind u) : seen [p] u = [] := by
  rw [seen, List.filter_cons_of_neg (by simpa using h)]
  rfl

omit [Crc32] in
theorem seen_not_blind (h : ¬ p.2.Blind u) : seen [p] u = [p.1] := by
  rw [seen, List.filter_cons_of_pos (by simpa using h)]
  rfl

theorem searchTables_singleton (t : Table) (u : Str) (s : ℕ) :
    searchTables u s [t] = t.sst.get u s := by
  rw [searchTables]
  cases t.sst.get u s with
  | error e => rfl
  | ok l => cases l <;> rfl

theorem searchTables_append_absent_iff {ts ts' : List Table} :
    searchTables u s (ts ++ ts') = .ok .absent ↔
      searchTables u s ts = .ok .absent ∧ searchTables u s ts' = .ok .absent := by
  by_cases h : searchTables u s ts = .ok .absent
  · rw [searchTables_append_of_absent h, and_iff_right h]
  · rw [searchTables_append_of_ne h, iff_false_intro h, false_and]

theorem comes_cons : Comes (p :: ps) u s ↔
    p.1.Hits p.2 u s ∨ searchTables u s (seen [p] u) = .ok .absent ∧ Comes ps u s := by
  by_cases hp : p.1.Hits p.2 u s
  · refine iff_of_true ⟨[], p, ps, rfl, List.forall_mem_nil _, rfl, hp⟩ (.inl hp)
  constructor
  · rintro ⟨pre, q, post, he, hpre, ha, hq⟩
    cases pre with
    | nil =>
        cases he
        exact absurd hq hp
    | cons x pre =>
        cases he
        rw [seen_cons p pre, searchTables_append_absent_iff] at ha
        exact .inr ⟨ha.1, pre, q, post, rfl, fun y hy => hpre y (List.mem_cons_of_mem _ hy), ha.2, hq⟩
  · rintro (h | ⟨ha, pre, q, post, rfl, hpre, hpa, hq⟩)
    · exact absurd h hp
    · refine ⟨p :: pre, q, post, rfl, List.forall_mem_cons.mpr ⟨hp, hpre⟩, ?_, hq⟩
      rw [seen_cons p pre, searchTables_append_absent_iff]
      exact ⟨ha, hpa⟩

theorem not_comes_nil : ¬ Comes [] u s := by
  rintro ⟨pre, p, post, he, -⟩
  simp at he

/-- One table: what it answers is what is seen of it. -/
theorem search_singleton (hcrc : ∀ bs, Crc32.hash bs = crc32.hash bs) (h : p.1.Damaged p.2)
    (hp : ¬ p.1.Hits p.2 u s) : searchTables u s [p.2] = searchTables u s (seen [p] u) := by
  rw [searchTables_singleton]
  by_cases hu : p.2.Blind u
  · rw [seen_blind hu, Table.Damaged.get_blind hu]
    rfl
  · rw [seen_not_blind hu, searchTables_singleton, h.get_same hcrc hu hp]

/-- The lookup fails if it comes to a spoiled block, and otherwise it answers as the tables that are not
blind. -/
theorem searchTables_damaged (hcrc : ∀ bs, Crc32.hash bs = crc32.hash bs) (h : ∀ p ∈ ps, p.1.Damaged p.2)
    (u : Str) (s : ℕ) :
    (Comes ps u s → searchTables u s (ps.map Prod.snd) = .error (.invalidState "block corrupted")) ∧
      (¬ Comes ps u s → searchTables u s (ps.map Prod.snd) = searchTables u s (seen ps u)) := by
  induction ps with
  | nil => exact ⟨fun hc => absurd hc not_comes_nil, fun _ => rfl⟩
  | cons p ps ih =>
      obtain ⟨hp, hps⟩ := List.forall_mem_cons.mp h
      have hmap : (p :: ps).map Prod.snd = [p.2] ++ ps.map Prod.snd := rfl
      rw [comes_cons, hmap, seen_cons p ps]
      by_cases hh : p.1.Hits p.2 u s
      · refine ⟨fun _ => ?_, fun hn => absurd (.inl hh) hn⟩
        have hget : searchTables u s [p.2] = .error (.invalidState "block corrupted") := by
          rw [searchTables_singleton, hp.get_hits hcrc hh]
        rw [searchTables_append_of_ne (by simp [hget]), hget]
      · have hone := search_singleton hcrc hp hh
        by_cases ha : searchTables u s (seen [p] u) = .ok .absent
        · rw [searchTables_append_of_absent (hone.trans ha), searchTables_append_of_absent ha]
          simpa [hh, ha] using ih hps
        · rw [searchTables_append_of_ne (hone ▸ ha), searchTables_append_of_ne ha, hone]
          simp [hh, ha]

/-! ### Opening -/

/-- The file `f'` is that of a finished table, `f`, with some of its blocks spoiled. -/
structure TableFile.Damaged (f f' : TableFile) : Prop where
  level : f'.level = f.level
  id : f'.id = f.id
  bytes : ∃ m, Table.Finished ⟨⟨f.bytes, m⟩, f.entries⟩ ∧ m.Damaged f.bytes f'.bytes

variable {f f' : TableFile} {fs : List (TableFile × TableFile)}
  {pl : List (ℕ × List (Table × Table))}

theorem openTable_finished {m : SSTableMeta} (h : Table.Finished ⟨⟨f.bytes, m⟩, f.entries⟩)
    (hidx : (m.index.flatMap IndexedKey.bytes).length < 2 ^ 32) :
    openTable f = .ok ⟨⟨f.bytes, m⟩, f.entries⟩ := by
  obtain ⟨-, b, -, hfile, rfl⟩ := writeTable_some h.1
  have hfile : f.bytes = b.bytes := hfile
  rw [openTable, hfile, b.read_eq hidx]
  rfl

theorem TableFile.Damaged.open (h : f.Damaged f') :
    ∃ m, openTable f = .ok ⟨⟨f.bytes, m⟩, f.entries⟩ ∧
      (SSTableMeta.read f'.bytes = (parseAt SSTableMeta.firstKeyParser f'.bytes 0).map fun k =>
        { m with firstKey := k }) ∧
      ∀ m', SSTableMeta.read f'.bytes = .ok m' →
        Table.Damaged ⟨⟨f.bytes, m⟩, f.entries⟩ ⟨⟨f'.bytes, m'⟩, f'.entries⟩ := by
  obtain ⟨m, hfin, hdam⟩ := h.bytes
  obtain ⟨-, b, -, hfile, rfl⟩ := writeTable_some hfin.1
  have hfile : f.bytes = b.bytes := hfile
  exact ⟨_, openTable_finished hfin hdam.index,
    b.read_of_drop hdam.index (hfile ▸ hdam.length) (hfile ▸ hdam.rest),
    fun m' hm' => ⟨hfin, hdam, hm'⟩⟩

/-- One side of a table of levels with pairs. -/
def side (g : Table × Table → Table) (pl : List (ℕ × List (Table × Table))) : Levels :=
  pl.map fun l => (l.1, l.2.map g)

omit [Crc32] in
theorem search_side (g : Table × Table → Table) :
    (side g pl).search = (pl.flatMap Prod.snd).map g := by
  rw [Levels.search, side, List.flatMap_map, List.map_flatMap]

omit [Crc32] in
/-- The same change on both sides. -/
theorem exists_alter (level : ℕ) (p : Table × Table) (pl : List (ℕ × List (Table × Table))) :
    ∃ pl', (∀ g, Levels.alter level (fun ts => ts ++ [g p]) (side g pl) = side g pl') ∧
      ∀ q ∈ pl'.flatMap Prod.snd, q ∈ pl.flatMap Prod.snd ∨ q = p := by
  induction pl with
  | nil => exact ⟨[(level, [p])], fun g => rfl, fun q hq => .inr (by simpa using hq)⟩
  | cons l pl ih =>
      obtain ⟨l, ps⟩ := l
      rcases Nat.lt_trichotomy level l with hlt | rfl | hgt
      · refine ⟨(level, [p]) :: (l, ps) :: pl, fun g => if_pos hlt, fun q hq => ?_⟩
        rcases List.mem_cons.mp hq with rfl | hq
        · exact .inr rfl
        · exact .inl hq
      · refine ⟨(level, ps ++ [p]) :: pl, fun g => ?_, fun q hq => ?_⟩
        · rw [side, List.map_cons, Levels.alter, if_neg (lt_irrefl _), if_pos rfl, side, List.map_cons,
            List.map_append, List.map_singleton]
        · simpa [or_assoc, or_comm, or_left_comm] using hq
      · obtain ⟨pl', halter, hmem⟩ := ih
        refine ⟨(l, ps) :: pl', fun g => ?_, fun q hq => ?_⟩
        · rw [side, List.map_cons, Levels.alter, if_neg hgt.not_gt, if_neg hgt.ne', ← side, halter g]
          rfl
        · rw [List.flatMap_cons, List.mem_append] at hq ⊢
          rcases hq with hq | hq
          · exact .inl (.inl hq)
          · exact (hmem q hq).imp_left .inr

theorem foldlM_damaged (h : ∀ p ∈ fs, p.1.Damaged p.2) (hopens : ∀ p ∈ fs, p.2.Opens) (n : ℕ)
    (pl : List (ℕ × List (Table × Table))) (hpl : ∀ q ∈ pl.flatMap Prod.snd, q.1.Damaged q.2) :
    ∃ n' pl', (fs.map Prod.fst).foldlM loadTable (n, side Prod.fst pl) = .ok (n', side Prod.fst pl') ∧
      (fs.map Prod.snd).foldlM loadTable (n, side Prod.snd pl) = .ok (n', side Prod.snd pl') ∧
      ∀ q ∈ pl'.flatMap Prod.snd, q.1.Damaged q.2 := by
  induction fs generalizing n pl with
  | nil => exact ⟨n, pl, rfl, rfl, hpl⟩
  | cons p fs ih =>
      obtain ⟨f, f'⟩ := p
      obtain ⟨hf, hfs⟩ := List.forall_mem_cons.mp h
      obtain ⟨⟨t', ht'⟩, hopens⟩ := List.forall_mem_cons.mp hopens
      obtain ⟨m, ho, hread, hdam⟩ := hf.open
      obtain ⟨m', hm', hret⟩ := ok_of_bind ht'
      cases hret
      have hfooter : m'.footer = m.footer := by
        rw [hm'] at hread
        cases hk : parseAt SSTableMeta.firstKeyParser f'.bytes 0 with
        | error e =>
            rw [hk] at hread
            cases hread
        | ok k =>
            rw [hk] at hread
            have hm : m' = { m with firstKey := k } := Except.ok.inj hread
            rw [hm]
      obtain ⟨pl', halter, hmem⟩ := exists_alter f.level
        (⟨⟨f.bytes, m⟩, f.entries⟩, ⟨⟨f'.bytes, m'⟩, f'.entries⟩) pl
      have hpl' : ∀ q ∈ pl'.flatMap Prod.snd, q.1.Damaged q.2 := by
        intro q hq
        rcases hmem q hq with hq | rfl
        · exact hpl q hq
        · exact hdam m' hm'
      obtain ⟨n', pl'', h₁, h₂, hpl''⟩ := ih hfs hopens (max n m.footer.largestSeq) pl' hpl'
      refine ⟨n', pl'', ?_, ?_, hpl''⟩
      · rw [List.map_cons, List.foldlM_cons, loadTable, ho]
        show (fs.map Prod.fst).foldlM loadTable
          (max n m.footer.largestSeq, Levels.alter f.level _ (side Prod.fst pl)) = _
        rw [halter Prod.fst, h₁]
      · rw [List.map_cons, List.foldlM_cons, loadTable, ht']
        show (fs.map Prod.snd).foldlM loadTable
          (max n m'.footer.largestSeq, Levels.alter f'.level _ (side Prod.snd pl)) = _
        rw [hfooter, hf.level, halter Prod.snd, h₂]

theorem TableFile.Damaged.opens_iff (h : f.Damaged f') :
    f'.Opens ↔ ∃ k, parseAt SSTableMeta.firstKeyParser f'.bytes 0 = .ok k := by
  obtain ⟨m, -, hread, -⟩ := h.open
  constructor
  · rintro ⟨t, ht⟩
    obtain ⟨m', hm', -⟩ := ok_of_bind ht
    rw [hread] at hm'
    cases hk : parseAt SSTableMeta.firstKeyParser f'.bytes 0 with
    | error e =>
        rw [hk] at hm'
        cases hm'
    | ok k => exact ⟨k, rfl⟩
  · rintro ⟨k, hk⟩
    rw [hk] at hread
    exact ⟨_, by rw [openTable, hread]; rfl⟩

omit [Crc32] in
theorem map_sortFiles (fs : List (TableFile × TableFile)) (g : TableFile × TableFile → TableFile)
    (hg : ∀ a ∈ fs, ∀ b ∈ fs, a.1.before b.1 ↔ (g a).before (g b)) :
    (fs.insertionSort fun a b => a.1.before b.1).map g = sortFiles (fs.map g) :=
  List.map_insertionSort _ _ g fs hg

/-- **A damaged store**: it can be opened if the first key of each table can still be read.  A lookup then
fails if it comes to a spoiled block, and otherwise it answers as the store before the damage would without
the tables whose first key has become greater than the user key. -/
theorem load_damaged (hcrc : ∀ bs, Crc32.hash bs = crc32.hash bs) (h : ∀ p ∈ fs, p.1.Damaged p.2) :
    ((∃ d', load (fs.map Prod.snd) = .ok d') ↔
        ∀ p ∈ fs, ∃ k, parseAt SSTableMeta.firstKeyParser p.2.bytes 0 = .ok k) ∧
      ∀ d', load (fs.map Prod.snd) = .ok d' → ∃ d ps, load (fs.map Prod.fst) = .ok d ∧
        d'.id = d.id ∧ d'.maxSeq = d.maxSeq ∧ d.tables = ps.map Prod.fst ∧
        d'.tables = ps.map Prod.snd ∧ (∀ p ∈ ps, p.1.Damaged p.2) ∧
        ∀ u s, (Comes ps u s → d'.getSnap u s = .error (.invalidState "block corrupted")) ∧
          (¬ Comes ps u s → d'.getSnap u s = searchTables u s (seen ps u)) := by
  have hperm : (fs.insertionSort fun a b => a.1.before b.1).Perm fs := List.perm_insertionSort _ _
  have hfst := map_sortFiles fs Prod.fst fun a _ b _ => Iff.rfl
  have hsnd := map_sortFiles fs Prod.snd fun a ha b hb => by
    rw [TableFile.before, TableFile.before, (h a ha).level, (h a ha).id, (h b hb).level, (h b hb).id]
  have hopens : (∀ f ∈ fs.map Prod.snd, f.Opens) ↔
      ∀ p ∈ fs, ∃ k, parseAt SSTableMeta.firstKeyParser p.2.bytes 0 = .ok k := by
    rw [List.forall_mem_map]
    exact forall₂_congr fun p hp => (h p hp).opens_iff
  refine ⟨load_ok_iff.trans hopens, fun d' hd' => ?_⟩
  have hall := List.forall_mem_map.mp (load_ok_iff.mp ⟨d', hd'⟩)
  obtain ⟨n, pl, h₁, h₂, hpl⟩ := foldlM_damaged (fun p hp => h p (hperm.subset hp))
    (fun p hp => hall p (hperm.subset hp)) 0 [] (List.forall_mem_nil _)
  rw [hfst] at h₁
  rw [hsnd] at h₂
  have hid : (fs.map Prod.snd).map TableFile.id = (fs.map Prod.fst).map TableFile.id := by
    rw [List.map_map, List.map_map]
    exact List.map_congr_left fun p hp => (h p hp).id
  obtain ⟨r, hr, hret⟩ := ok_of_bind hd'
  cases h₂.symm.trans hr
  cases hret
  have hload : loadTables (sortFiles (fs.map Prod.fst)) = .ok (n, side Prod.fst pl) := h₁
  have hd : load (fs.map Prod.fst) =
      .ok ⟨((fs.map Prod.fst).map TableFile.id).foldr max 0 + 1, n, side Prod.fst pl⟩ := by
    rw [load, hload]
    rfl
  refine ⟨_, pl.flatMap Prod.snd, hd, congrArg (fun l => l.foldr max 0 + 1) hid, rfl,
    search_side _, search_side _, hpl, fun u s => ?_⟩
  have hsearch := searchTables_damaged hcrc hpl u s
  rw [← search_side] at hsearch
  exact hsearch

end damaged

theorem exists_hidden : ∃ file m, @writeTable crc32 hidden = .ok (some (file, m)) ∧
    file.length < 2 ^ 64 ∧ (m.index.flatMap IndexedKey.bytes).length < 2 ^ 32 := by
  have h : ((@writeTable crc32 hidden).toOption.join.map fun r =>
      decide (r.1.length < 2 ^ 64 ∧ (r.2.index.flatMap IndexedKey.bytes).length < 2 ^ 32)) =
        some true := by decide +kernel
  obtain ⟨r, hw, h⟩ := Option.map_eq_some_iff.mp h
  exact ⟨r.1, r.2, @writeTable_of_join crc32 _ _ hw, of_decide_eq_true h⟩

theorem damages_deletion : damages deletion (.ascii [0x6a]) = some true := by decide +kernel

/-- Two tables of level 0, the newer one first. -/
theorem load_two {a b : TableFile} {t u : Table} (ha : openTable a = .ok t) (hb : openTable b = .ok u)
    (hla : a.level = 0) (hlb : b.level = 0) (hid : b.id ≤ a.id) :
    ∃ d, load [a, b] = .ok d ∧ d.tables = [t, u] := by
  have hsort : sortFiles [a, b] = [a, b] := by
    have hbefore : a.before b := .inr ⟨hla.trans hlb.symm, hid⟩
    simp [sortFiles, hbefore]
  have hload : loadTables (sortFiles [a, b]) = .ok (max (max 0 t.sst.tableMeta.footer.largestSeq)
      u.sst.tableMeta.footer.largestSeq, [(0, [t, u])]) := by
    rw [hsort]
    show [a, b].foldlM loadTable (0, []) = _
    rw [List.foldlM_cons, loadTable, ha, hla]
    show [b].foldlM loadTable (_, [(0, [t])]) = _
    rw [List.foldlM_cons, loadTable, hb, hlb]
    rfl
  exact ⟨_, by rw [load, hload]; rfl, rfl⟩

/-- With a damaged first key the deletion is passed over, and the version comes back. -/
theorem load_damaged_deletion : ∃ (front front' back : TableFile) (d d' : DiskStorage),
    front.entries = deletion ∧ back.entries = hidden ∧ @TableFile.Damaged crc32 front front' ∧
    load [front, back] = .ok d ∧ @getSnap crc32 d (.ascii [0x6a]) 2 = .ok .deleted ∧
    load [front', back] = .ok d' ∧
    @getSnap crc32 d' (.ascii [0x6a]) 2 = .ok (.found (.ascii [0x76])) := by
  obtain ⟨file, m, m', h, ⟨hlen, hrest⟩, hs, -, hidx, hm, hlt⟩ := exists_of_damages damages_deletion
  obtain ⟨file₂, m₂, h₂, hlen₂, hidx₂⟩ := exists_hidden
  let front : TableFile := ⟨0, 2, file, deletion⟩
  let front' : TableFile := ⟨0, 2, damaged file, deletion⟩
  let back : TableFile := ⟨0, 1, file₂, hidden⟩
  let t : Table := ⟨⟨file, m⟩, deletion⟩
  let t' : Table := ⟨⟨damaged file, m'⟩, deletion⟩
  let u : Table := ⟨⟨file₂, m₂⟩, hidden⟩
  have hfront : @TableFile.Damaged crc32 front front' :=
    @TableFile.Damaged.mk crc32 front front' rfl rfl
      ⟨m, ⟨h, hlen⟩, hidx, List.length_set, hrest, fun y hy => .inr (hs y hy)⟩
  have hback : @TableFile.Damaged crc32 back back :=
    @TableFile.Damaged.mk crc32 back back rfl rfl
      ⟨m₂, ⟨h₂, hlen₂⟩, hidx₂, rfl, rfl, fun _ _ => .inl rfl⟩
  have ht : openTable front = .ok t := @openTable_finished crc32 front m ⟨h, hlen⟩ hidx
  have ht' : openTable front' = .ok t' := by
    rw [openTable, show SSTableMeta.read front'.bytes = _ from hm]
    rfl
  have hu : openTable back = .ok u := @openTable_finished crc32 back m₂ ⟨h₂, hlen₂⟩ hidx₂
  have hle : back.id ≤ front.id := Nat.le_succ 1
  obtain ⟨d, hd, htables⟩ := load_two ht hu rfl rfl hle
  obtain ⟨d', hd', htables'⟩ := load_two ht' hu rfl rfl hle
  obtain ⟨d₀, ps, hd₀, -, -, hps, hps', -, hget⟩ := (@load_damaged crc32
    [(front, front'), (back, back)] (fun _ => rfl) (by simp [hfront, hback])).2 d' hd'
  cases hd.symm.trans hd₀
  obtain rfl : ps = [(t, t'), (u, u)] := by
    have hzip := List.zip_of_prod hps.symm hps'.symm
    rw [htables, htables'] at hzip
    exact hzip
  have hdel : @searchTables crc32 (.ascii [0x6a]) 2 [t] = .ok .deleted :=
    (@searchTables_singleton crc32 t _ 2).trans (@written_get crc32 _ _ _ h _ 2).1
  have hfound : @SSTable.get crc32 u.sst (.ascii [0x6a]) 2 = .ok (.found (.ascii [0x76])) :=
    (@written_get crc32 _ _ _ h₂ _ 2).1
  have hblind : t'.Blind (.ascii [0x6a]) := hlt
  have hsees : ¬ u.Blind (.ascii [0x6a]) := by
    intro hb
    cases hfound.symm.trans (@Table.Damaged.get_blind crc32 _ _ _ hb)
  have hseen : seen [(t, t'), (u, u)] (.ascii [0x6a]) = [u] := by
    rw [seen_cons, seen_blind hblind, seen_not_blind hsees]
    rfl
  refine ⟨front, front', back, d, d', rfl, rfl, hfront, hd, ?_, hd', ?_⟩
  · show @searchTables crc32 _ 2 d.tables = _
    rw [htables]
    exact (@searchTables_append_of_ne crc32 [t] [u] _ 2 (by simp [hdel])).trans hdel
  · have hsearch := (hget (.ascii [0x6a]) 2).2 ?_
    · rw [hseen] at hsearch
      exact hsearch.trans ((@searchTables_singleton crc32 u _ 2).trans hfound)
    · intro hc
      rcases (@comes_cons crc32 _ _ _ _).mp hc with hh | ⟨-, hc⟩
      · exact hh.1 hblind
      rcases (@comes_cons crc32 _ _ _ _).mp hc with ⟨-, x, -, hne⟩ | ⟨-, hc⟩
      · exact hne rfl
      · exact @not_comes_nil crc32 _ _ hc

end LowDB
