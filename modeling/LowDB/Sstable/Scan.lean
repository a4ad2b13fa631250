import LowDB.Sstable.Reopen

/-! # Table scans

`sstable/src/scan/table.rs`.  A scan reads the blocks of a table from the start of the file and stops
where the footer says the bloom filter begins.  It counts down two lengths, that of the block and
that of all blocks; `Positioned` says that both agree with the entries still to come, so a scan of a
table that was written yields its entries (`scan_written`). -/

namespace LowDB

open Codec

structure TableScan where
  /-- what the reader has in front of it -/
  r : Bytes
  blockRemaining : ℕ
  remaining : ℕ

namespace TableScan

/-- `TableScan::open` on the bytes of a file. -/
def «open» (file : Bytes) : DbResult TableScan := do
  let size := file.length
  if size < footerLen then throw (.invalidState "sstable is empty")
  let footer ← parseAt parseFooter file (size - footerLen)
  return ⟨file, 0, footer.bloomOff⟩

variable [Crc32]

def checkBlock (t : TableScan) : DbResult TableScan := do
  let (sum, r) ← beNat .eof 4 t.r
  let (len, r) ← beNat .eof 2 r
  if t.remaining < blockHeader then throw (.invalidState "truncated block header")
  let (buf, _) ← take .eof len r
  if (Crc32.hash buf).toNat ≠ sum then throw (.invalidState "block corrupted")
  return ⟨r, len, t.remaining - blockHeader⟩

/-- The part of `next` behind the block header. -/
def readEntry (t : TableScan) : DbResult (Option Entry × TableScan) := do
  let (key, r) ← readKey t.r
  let (value, r) ← parseValue .eof lossyStr r
  let used := key.diskSize + value.diskSize
  if t.blockRemaining < used ∨ 2 ^ 16 ≤ t.blockRemaining - used then
    throw (.invalidState "entry crosses the block boundary")
  if t.remaining < used then throw (.invalidState "entry runs past the last block")
  return (some (key, value), ⟨r, t.blockRemaining - used, t.remaining - used⟩)

/-- `TableScan::next`: the entry and the scan afterwards. -/
def next (t : TableScan) : DbResult (Option Entry × TableScan) :=
  if t.remaining = 0 then .ok (none, t)
  else if t.blockRemaining = 0 then do
    let t ← t.checkBlock
    if t.blockRemaining = 0 then
      if t.remaining = 0 then return (none, t)
      else throw (.invalidState "empty block before end of the table")
    else t.readEntry
  else t.readEntry

/-- Repeated `next` returns the entries `es` in order, and then `None`. -/
def Yields : TableScan → List Entry → Prop
  | t, [] => t.next = .ok (none, t)
  | t, e :: es => ∃ t', t.next = .ok (some e, t') ∧ Yields t' es

omit [Crc32] in
theorem shrinks_readEntry {t t' : TableScan} {e : Entry}
    (h : t.readEntry = .ok (some e, t')) : t'.r.length < t.r.length := by
  obtain ⟨⟨k, r₁⟩, h₁, h⟩ := ok_of_bind h
  obtain ⟨⟨v, r₂⟩, h₂, h⟩ := ok_of_bind h
  obtain ⟨len, m, hm, h₁⟩ := bind_eq_ok h₁
  have e₁ := length_of_beNat hm
  have e₂ : r₁.length ≤ m.length :=
    ((shrinks_parseStr _ _ len).bind fun _ => (shrinks_beNat _ 8).bind fun _ => shrinks_pure _)
      _ _ _ h₁
  have e₃ := shrinks_parseValue _ _ _ _ _ h₂
  dsimp only at h
  split_ifs at h
  · cases h
  · cases h
  · cases h
  · cases h
    change r₂.length < _
    omega

theorem shrinks_checkBlock {t t' : TableScan} (h : t.checkBlock = .ok t') :
    t'.r.length ≤ t.r.length := by
  obtain ⟨⟨sum, r₁⟩, h₁, h⟩ := ok_of_bind h
  obtain ⟨⟨len, r₂⟩, h₂, h⟩ := ok_of_bind h
  have e₁ := length_of_beNat h₁
  have e₂ := length_of_beNat h₂
  dsimp only at h
  by_cases hr : t.remaining < blockHeader
  · rw [if_pos hr] at h
    cases h
  · rw [if_neg hr] at h
    obtain ⟨⟨buf, r₃⟩, -, h⟩ := ok_of_bind h
    dsimp only at h
    split_ifs at h
    · cases h
    · cases h
      change r₂.length ≤ _
      omega

/-- An entry takes at least one byte. -/
theorem shrinks_next {t t' : TableScan} {e : Entry} (h : t.next = .ok (some e, t')) :
    t'.r.length < t.r.length := by
  unfold next at h
  split_ifs at h with hr hb
  · cases h
  · obtain ⟨t₁, h₁, h⟩ := ok_of_bind h
    have hle := shrinks_checkBlock h₁
    split_ifs at h
    · cases h
    · exact (shrinks_readEntry h).trans_le hle
  · exact shrinks_readEntry h

theorem Yields.length_le {t : TableScan} {es : List Entry} (h : t.Yields es) :
    es.length ≤ t.r.length := by
  induction es generalizing t with
  | nil => exact Nat.zero_le _
  | cons e es ih =>
      obtain ⟨t', hn, hy⟩ := h
      have := shrinks_next hn
      have := ih hy
      rw [List.length_cons]
      omega

/-- The entries `cur` of the current block are to come, and then the blocks `cs`. -/
structure Positioned (t : TableScan) (cur : List Entry) (cs : List (List Entry)) : Prop where
  reader : ∃ rest, t.r = payload cur ++ (blocksBytes cs ++ rest)
  block : t.blockRemaining = (cur.map Entry.diskSize).sum
  total : t.remaining = (cur.map Entry.diskSize).sum + blocksLen cs
  fits : ∀ e ∈ cur, e.Fits
  short : blockLen cur < 2 ^ 16

variable {t : TableScan} {e : Entry} {cur : List Entry} {c : List Entry} {cs : List (List Entry)}

theorem readEntry_eq (h : Positioned t (e :: cur) cs) :
    ∃ t', t.readEntry = .ok (some e.stored, t') ∧ Positioned t' cur cs := by
  obtain ⟨rest, hr⟩ := h.reader
  have hfit := h.fits e List.mem_cons_self
  have hlen : ((e :: cur).map Entry.diskSize).sum =
      e.diskSize + (cur.map Entry.diskSize).sum := by simp
  have hshort := h.short
  have hb := h.block
  have ht := h.total
  unfold blockLen at hshort
  rw [hlen] at hb ht hshort
  have hused : e.stored.1.diskSize + e.stored.2.diskSize = e.diskSize := Entry.diskSize_stored e
  have hk : readKey t.r = .ok (e.1, valueBytes e.2 ++ (payload cur ++ (blocksBytes cs ++ rest))) := by
    rw [hr, payload_cons, entryBytes, List.append_assoc, List.append_assoc]
    exact decodes_parseKey lossyStr_bytes hfit.1 _
  have hv := decodes_parseValue (e := .eof) lossyStr_bytes hfit.2
    (payload cur ++ (blocksBytes cs ++ rest))
  refine ⟨⟨payload cur ++ (blocksBytes cs ++ rest), t.blockRemaining - e.diskSize,
    t.remaining - e.diskSize⟩, ?_, ⟨rest, rfl⟩, ?_, ?_, ?_, ?_⟩
  · have hd : e.1.diskSize + e.2.stored.diskSize = e.diskSize := hused
    simp only [readEntry, bind, Except.bind, hk, hv, hd]
    rw [if_neg (by omega), if_neg (by omega)]
    rfl
  · change t.blockRemaining - e.diskSize = _
    omega
  · change t.remaining - e.diskSize = _
    omega
  · exact fun x hx => h.fits x (List.mem_cons_of_mem e hx)
  · unfold blockLen
    omega

/-- The next entry of the current block. -/
theorem next_entry (h : Positioned t (e :: cur) cs) :
    ∃ t', t.next = .ok (some e.stored, t') ∧ Positioned t' cur cs := by
  have hpos := diskSize_entry_pos e
  have hb := h.block
  have ht := h.total
  simp only [List.map_cons, List.sum_cons] at hb ht
  unfold next
  rw [if_neg (by omega), if_neg (by omega)]
  exact readEntry_eq h

/-- The header of the next block. -/
theorem checkBlock_eq (h : Positioned t [] (c :: cs)) (hshort : blockLen c < 2 ^ 16)
    (hfits : ∀ e ∈ c, e.Fits) :
    ∃ t', t.checkBlock = .ok t' ∧ Positioned t' c cs := by
  obtain ⟨rest, hr⟩ := h.reader
  have ht := h.total
  have hsum : blocksLen (c :: cs) = blockLen c + blocksLen cs := rfl
  have hlen : (c.map Entry.diskSize).sum < 2 ^ 16 := by
    unfold blockLen at hshort
    omega
  simp only [List.map_nil, List.sum_nil, Nat.zero_add] at ht
  have h4 := decodes_beNat DbError.eof (w := 4) (Crc32.hash (payload c)).toNat_lt
    (be 2 ((c.map Entry.diskSize).sum) ++ (payload c ++ (blocksBytes cs ++ rest)))
  have h2 := decodes_u16 DbError.eof hlen (payload c ++ (blocksBytes cs ++ rest))
  have hp := decodes_take DbError.eof (payload c) (blocksBytes cs ++ rest)
  rw [length_payload] at hp
  have hbytes : t.r = be 4 (Crc32.hash (payload c)).toNat ++
      (be 2 ((c.map Entry.diskSize).sum) ++ (payload c ++ (blocksBytes cs ++ rest))) := by
    rw [hr]
    simp [payload, blocksBytes, blockBytes]
  refine ⟨⟨payload c ++ (blocksBytes cs ++ rest), (c.map Entry.diskSize).sum,
    t.remaining - blockHeader⟩, ?_, ⟨rest, rfl⟩, rfl, ?_, hfits, hshort⟩
  · have hhead : ¬ t.remaining < blockHeader := by
      rw [ht, hsum, blockLen]
      omega
    simp only [checkBlock, bind, Except.bind, hbytes, h4, h2, hp]
    rw [if_neg hhead]
    simp [pure, Except.pure]
  · change t.remaining - blockHeader = _
    rw [ht, hsum, blockLen]
    omega

/-- Past a block the next entry is the first one of the block that follows. -/
theorem next_block (h : Positioned t [] ((e :: c) :: cs)) (hshort : blockLen (e :: c) < 2 ^ 16)
    (hfits : ∀ x ∈ e :: c, x.Fits) :
    ∃ t', t.next = .ok (some e.stored, t') ∧ Positioned t' c cs := by
  obtain ⟨t₁, h₁, hp₁⟩ := checkBlock_eq h hshort hfits
  obtain ⟨t₂, h₂, hp₂⟩ := readEntry_eq hp₁
  refine ⟨t₂, ?_, hp₂⟩
  have hpos := diskSize_entry_pos e
  have hb := h.block
  have ht := h.total
  have hb₁ := hp₁.block
  have hsum : blocksLen ((e :: c) :: cs) = blockLen (e :: c) + blocksLen cs := rfl
  simp only [List.map_nil, List.sum_nil, Nat.zero_add] at hb ht
  simp only [List.map_cons, List.sum_cons] at hb₁
  have hne : t.remaining ≠ 0 := by
    rw [ht, hsum, blockLen, blockHeader]
    omega
  simp only [next, if_neg hne, if_pos hb, bind, Except.bind, h₁]
  rw [if_neg (by omega)]
  exact h₂

theorem next_end (h : Positioned t [] []) : t.next = .ok (none, t) := by
  have ht : t.remaining = 0 := h.total
  rw [next, if_pos ht]

/-- A scan positioned in a table yields what is to come. -/
theorem yields_of_positioned (h : Positioned t cur cs) (hne : ∀ c ∈ cs, c ≠ [])
    (hshort : ∀ c ∈ cs, blockLen c < 2 ^ 16) (hfits : ∀ c ∈ cs, ∀ e ∈ c, e.Fits) :
    t.Yields ((cur ++ cs.flatten).map Entry.stored) := by
  induction cs generalizing t cur with
  | nil =>
      rw [List.flatten_nil, List.append_nil]
      induction cur generalizing t with
      | nil => exact next_end h
      | cons e cur ih =>
          obtain ⟨t', hn, hp⟩ := next_entry h
          exact ⟨t', hn, ih hp⟩
  | cons c cs ih =>
      induction cur generalizing t with
      | nil =>
          obtain ⟨e, c, rfl⟩ := List.exists_cons_of_ne_nil (hne c List.mem_cons_self)
          obtain ⟨t', hn, hp⟩ := next_block h (hshort _ List.mem_cons_self)
            (hfits _ List.mem_cons_self)
          exact ⟨t', hn, ih hp (fun d hd => hne d (List.mem_cons_of_mem _ hd))
            (fun d hd => hshort d (List.mem_cons_of_mem _ hd))
            fun d hd => hfits d (List.mem_cons_of_mem _ hd)⟩
      | cons e cur ihc =>
          obtain ⟨t', hn, hp⟩ := next_entry h
          exact ⟨t', hn, ihc hp⟩

end TableScan

section written
variable [Crc32]

/-- **A scan undoes writing**: it yields the entries as the table stores them, and never fails.
The length of a file is a `u64`. -/
theorem scan_written {es : List Entry} {file : Bytes} {m : SSTableMeta}
    (h : writeTable es = .ok (some (file, m))) (hlen : file.length < 2 ^ 64) :
    ∃ t, TableScan.open file = .ok t ∧ t.Yields (es.map Entry.stored) := by
  obtain ⟨_, b, rfl, rfl, rfl⟩ := writeTable_some h
  obtain ⟨f, hf, _, hoff, _⟩ := b.parseAt_footer
  have hlong : footerLen ≤ b.bytes.length := by
    rw [b.length_bytes, Blocks.tableMeta]
    simp
  have hblocks : blocksLen b.chunks ≤ b.bytes.length := by
    rw [Blocks.bytes, List.length_append, length_blocksBytes]
    exact Nat.le_add_right _ _
  have hbloom : f.bloomOff = blocksLen b.chunks := by
    have hmod : b.footer.bloomOff % 256 ^ 8 = b.footer.bloomOff :=
      Nat.mod_eq_of_lt (show blocksLen b.chunks < _ by omega)
    rw [hoff, hmod]
    rfl
  refine ⟨⟨b.bytes, 0, f.bloomOff⟩, ?_, ?_⟩
  · simp only [TableScan.open, bind, Except.bind, hf, if_neg (Nat.not_lt.mpr hlong)]
    rfl
  · have hread : b.bytes = payload [] ++ (blocksBytes b.chunks ++ (be 4 b.bloom.bytes.length ++
        (b.bloom.bytes ++ (b.indexBytes ++ b.footer.bytes)))) := by
      rw [payload, List.flatMap_nil, List.nil_append, Blocks.bytes]
    have hpos : TableScan.Positioned ⟨b.bytes, 0, f.bloomOff⟩ [] b.chunks :=
      ⟨⟨_, hread⟩, rfl, by simp [hbloom], List.forall_mem_nil _, by decide⟩
    have hy := TableScan.yields_of_positioned hpos b.ne_nil b.short b.fits
    rwa [List.nil_append] at hy

end written

theorem scan_written_twoVersions :
    ∃ file t, TableScan.open file = .ok t ∧
      @TableScan.Yields crc32 t (twoVersions.map Entry.stored) := by
  obtain ⟨file, m, h, hlen, _⟩ := writeTable_twoVersions
  exact ⟨file, @scan_written crc32 _ _ _ h (hlen.trans (by decide))⟩

end LowDB
