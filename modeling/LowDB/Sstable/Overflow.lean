import LowDB.Sstable.Reopen

/-! # Indexes that do not fit

The footer keeps the length of the index modulo `2^32`.  Where that is less than the size of the first
entry, the table cannot be opened again (`read_error`).  A table of entries that fill a block each has
one index entry for each of them (`length_indexBytes_of_wide`), so `2^16` keys of the greatest length
are enough.

How long the index gets depends on the entries alone (`indexSize`), and the lengths in the footer are
the true ones exactly if that is less than `2^32` (`footer_lengths_iff`). -/

namespace LowDB

open Codec

/-! ### The size of the index -/

/-- The bytes of the index, when the open block has `used` bytes and the entries `es` follow: every
entry that closes a block has its key in the index, and so has the last one. -/
def indexSize : ℕ → List Entry → ℕ
  | _, [] => 0
  | used, e :: es =>
    if blockSize < used + e.diskSize ∨ es = [] then e.1.diskSize + 10 + indexSize blockHeader es
    else indexSize (used + e.diskSize) es

namespace Built

variable [Crc32] {w w' w'' : SSTableWriter} {es cur rest : List Entry} {chunks : List (List Entry)}
  {e : Entry}

/-- A block closed adds its last key to the index. -/
theorem length_indexBytes_concat (h : Built w es chunks cur)
    (h' : Built w' (es ++ [e]) (chunks ++ [cur ++ [e]]) []) :
    w'.indexBytes.length = w.indexBytes.length + (e.1.diskSize + 10) := by
  have hk : lastKeyOf (cur ++ [e]) = e.1 := by simp [lastKeyOf]
  rw [h'.indexBytes, h'.index, indexFrom_concat, h.indexBytes, h.index, List.flatMap_append,
    List.length_append, List.flatMap_singleton, IndexedKey.length_bytes, IndexedKey.diskSize, hk]

/-- Writing the entries `rest` and closing the last block makes the index longer by their
`indexSize`. -/
theorem length_indexBytes (h : Built w es chunks cur) (hle : blockLen cur ≤ blockSize)
    (hnil : rest = [] → cur = []) (ha : w.addAll rest = .ok w') (hf : w'.flushBlock = .ok w'') :
    w''.indexBytes.length = w.indexBytes.length + indexSize (blockLen cur) rest := by
  induction rest generalizing w es chunks cur with
  | nil =>
      cases ha
      obtain rfl := hnil rfl
      cases h.flushBlock_nil.symm.trans hf
      rfl
  | cons e rest ih =>
      rw [SSTableWriter.addAll, List.foldlM_cons] at ha
      obtain ⟨w₁, h₁, ha⟩ := ok_of_bind ha
      obtain ⟨hfit, hlast, -⟩ := h.of_add h₁
      have hadd := h.add hlast hfit
      rw [indexSize, ← blockLen_concat]
      by_cases hb : blockSize < blockLen (cur ++ [e])
      · rw [if_pos hb] at hadd
        by_cases hs : blockLen (cur ++ [e]) < 2 ^ 16
        · rw [if_pos hs] at hadd
          obtain ⟨w₂, h₂, hw⟩ := hadd
          cases h₂.symm.trans h₁
          have hi := ih hw (by decide) (fun _ => rfl) ha
          rw [if_pos (.inl hb), hi, h.length_indexBytes_concat hw, Nat.add_assoc]
          rfl
        · rw [if_neg hs] at hadd
          cases hadd.symm.trans h₁
      · rw [if_neg hb] at hadd
        obtain ⟨w₂, h₂, hw⟩ := hadd
        cases h₂.symm.trans h₁
        by_cases hr : rest = []
        · -- the last entry of the table: its block is closed by `finish`
          subst hr
          cases ha
          have hflush := hw.flushBlock (by simp)
          have hlt : blockLen (cur ++ [e]) < 2 ^ 16 := by
            have : blockSize = 4096 := rfl
            omega
          rw [if_pos hlt] at hflush
          obtain ⟨w₃, h₃, hw₃⟩ := hflush
          cases h₃.symm.trans hf
          rw [if_pos (.inr rfl), h.length_indexBytes_concat hw₃]
          rfl
        · have hi := ih hw (Nat.le_of_not_lt hb) (fun he => absurd he hr) ha
          have hi' : w₁.indexBytes = w.indexBytes := by
            rw [hw.indexBytes, hw.index, h.indexBytes, h.index]
          rw [if_neg (not_or.mpr ⟨hb, hr⟩), hi, hi']

end Built


/-- The loop over the index stops at an entry longer than what is left of it. -/
theorem readIndex_error {i : IndexedKey} (hk : i.key.Fits) (ho : i.blockOff < 2 ^ 64)
    (hl : i.blockLen < 2 ^ 16) {n len : ℕ} (h₀ : len ≠ 0) (hlt : len < i.diskSize) (rest : Bytes) :
    readIndex (n + 1) len (i.bytes ++ rest) =
      .error (.invalidState "index length does not match entries") := by
  rw [readIndex, if_neg h₀, bind_apply, decodes_parseIndexedKey hk ho hl rest]
  show (if len < i.diskSize then throw _ else _ : Parser DbError (List IndexedKey)) rest = _
  rw [if_pos hlt]
  rfl

/-- An entry that fills a block. -/
def Entry.Wide (e : Entry) : Prop := 2 ^ 15 ≤ e.diskSize ∧ blockHeader + e.diskSize < 2 ^ 16

theorem blocksFit_of_wide {es : List Entry} (h : ∀ e ∈ es, e.Wide) : BlocksFit blockHeader es := by
  induction es with
  | nil => trivial
  | cons e es ih =>
      obtain ⟨he, hes⟩ := List.forall_mem_cons.mp h
      have hs : blockSize = 4096 := rfl
      have hlt : blockSize < blockHeader + e.diskSize := by
        have := he.1
        omega
      rw [BlocksFit, if_pos hlt]
      exact ⟨he.2, ih hes⟩

namespace Blocks

variable (b : Blocks)

/-- A block holds one wide entry. -/
theorem length_of_wide (h : ∀ e ∈ b.entries, e.Wide) {c : List Entry} (hc : c ∈ b.chunks) :
    c.length = 1 := by
  have hshort := b.short c hc
  have hwide : ∀ e ∈ c, 2 ^ 15 ≤ e.diskSize := fun e he =>
    (h e (List.mem_flatten.mpr ⟨c, hc, he⟩)).1
  cases c with
  | nil => exact absurd rfl (b.ne_nil [] hc)
  | cons e es =>
      cases es with
      | nil => rfl
      | cons e' es =>
          have he := hwide e List.mem_cons_self
          have he' := hwide e' (List.mem_cons_of_mem _ List.mem_cons_self)
          simp only [blockLen, List.map_cons, List.sum_cons] at hshort
          omega

theorem length_chunks_of_wide (h : ∀ e ∈ b.entries, e.Wide) :
    b.chunks.length = b.entries.length := by
  have hall : ∀ c ∈ b.chunks, c.length = 1 := fun c hc => b.length_of_wide h hc
  rw [entries, List.length_flatten, List.map_congr_left hall, List.map_const',
    List.sum_replicate_nat, Nat.mul_one]

theorem length_flatMap_indexFrom {cs : List (List Entry)} {n : ℕ}
    (h : ∀ c ∈ cs, (lastKeyOf c).diskSize = n) (off : ℕ) :
    ((indexFrom off cs).flatMap IndexedKey.bytes).length = cs.length * (n + 10) := by
  induction cs generalizing off with
  | nil => simp [indexFrom]
  | cons c cs ih =>
      obtain ⟨hc, hcs⟩ := List.forall_mem_cons.mp h
      rw [indexFrom, List.flatMap_cons, List.length_append, ih hcs, IndexedKey.length_bytes,
        IndexedKey.diskSize, hc, List.length_cons]
      ring

/-- With keys of one length, each filling a block, the index has as many entries as the table. -/
theorem length_indexBytes_of_wide (h : ∀ e ∈ b.entries, e.Wide) {n : ℕ}
    (hn : ∀ e ∈ b.entries, e.1.diskSize = n) :
    b.indexBytes.length = b.entries.length * (n + 10) := by
  rw [indexBytes, index, length_flatMap_indexFrom (fun c hc => ?_), b.length_chunks_of_wide h]
  obtain ⟨e, he, hk⟩ := lastKeyOf_mem (b.ne_nil c hc)
  rw [← hk]
  exact hn e (List.mem_flatten.mpr ⟨c, hc, he⟩)

/-- The index of a table of wide entries starts at an offset that the footer can hold. -/
theorem indexOff_lt_of_wide (h : ∀ e ∈ b.entries, e.Wide) (hn : b.entries.length < 2 ^ 40) :
    b.footer.indexOff < 2 ^ 64 := by
  have hblocks := blocksLen_le b.short
  have hlen := b.length_chunks_of_wide h
  have hl : b.bloom.bytes.length < 2 ^ 32 := by
    rw [bloom, length_bloomOf]
    exact b.bloom_fits
  have hoff : b.footer.indexOff = blocksLen b.chunks + (4 + b.bloom.bytes.length) := rfl
  omega

variable [Crc32]

/-- What the loop over the index returns for a length less than the size of the first entry. -/
theorem parseAt_index_of_lt {c : List Entry} {cs : List (List Entry)} (hc : b.chunks = c :: cs)
    {len : ℕ} (hlt : len < (lastKeyOf c).diskSize + 10) {index : List IndexedKey}
    (h : parseAt (readIndex (len + 1) len) b.bytes b.footer.indexOff = .ok index) : index = [] := by
  by_cases h₀ : len = 0
  · subst h₀
    cases h
    rfl
  have hmem : c ∈ b.chunks := by rw [hc]; exact List.mem_cons_self
  obtain ⟨e, he, hk⟩ := lastKeyOf_mem (b.ne_nil c hmem)
  have hfit : (lastKeyOf c).Fits := hk ▸ (b.fits c hmem e he).1
  have hbytes : b.bytes = (blocksBytes b.chunks ++ (be 4 b.bloom.bytes.length ++ b.bloom.bytes)) ++
      (IndexedKey.bytes ⟨lastKeyOf c, 0, blockLen c⟩ ++
        ((indexFrom (0 + blockLen c) cs).flatMap IndexedKey.bytes ++ b.footer.bytes)) := by
    have hi : b.indexBytes = IndexedKey.bytes ⟨lastKeyOf c, 0, blockLen c⟩ ++
        (indexFrom (0 + blockLen c) cs).flatMap IndexedKey.bytes := by
      rw [indexBytes, Blocks.index, hc, indexFrom, List.flatMap_cons]
    rw [bytes, hi]
    simp only [List.append_assoc]
  have hoff : (blocksBytes b.chunks ++ (be 4 b.bloom.bytes.length ++ b.bloom.bytes)).length =
      b.footer.indexOff := by
    simp [footer, BloomFilter.diskSize]
  have herr := readIndex_error (i := ⟨lastKeyOf c, 0, blockLen c⟩) (n := len) hfit
    (Nat.two_pow_pos 64) (b.short c hmem) h₀ (show len < (lastKeyOf c).diskSize + 8 + 2 by omega)
  rw [parseAt, hbytes, List.drop_left' hoff, herr] at h
  cases h

/-- **Truncated index lengths**: a table whose index length is less, modulo `2^32`, than the size of
the first entry cannot be opened. -/
theorem read_error (hoff : b.footer.indexOff < 2 ^ 64)
    (hlt : ∀ c ∈ b.chunks.head?, b.indexBytes.length % 2 ^ 32 < (lastKeyOf c).diskSize + 10) :
    ∃ e, SSTableMeta.read b.bytes = .error e := by
  cases hr : SSTableMeta.read b.bytes with
  | error e => exact ⟨e, rfl⟩
  | ok m =>
      exfalso
      obtain ⟨c, cs, hc⟩ := List.exists_cons_of_ne_nil b.nonempty
      have hlt := hlt c (by rw [hc]; rfl)
      have hlen : b.footer.indexLen % 256 ^ 4 = b.indexBytes.length % 2 ^ 32 := by
        rw [footer, indexLen_eq]
        exact Nat.mod_mod _ _
      have hf := b.parseAt_footer_mod
      rw [hlen, Nat.mod_eq_of_lt (show b.footer.indexOff < 256 ^ 8 from hoff)] at hf
      rw [SSTableMeta.read] at hr
      simp only [bind, Except.bind, hf] at hr
      split_ifs at hr
      split at hr
      · cases hr
      split at hr
      · cases hr
      split at hr
      · cases hr
      · next index hidx =>
        rw [b.parseAt_index_of_lt hc hlt hidx] at hr
        cases hr

end Blocks

/-! ### The lengths in the footer -/

section footer
variable [Crc32] {es : List Entry} {file : Bytes} {m : SSTableMeta}

/-- The index written is as long as the entries make it. -/
theorem length_index_of_writeTable (h : writeTable es = .ok (some (file, m))) :
    (m.index.flatMap IndexedKey.bytes).length = indexSize blockHeader es := by
  obtain ⟨w, ha, hf⟩ := ok_of_bind h
  obtain ⟨-, chunks, cur, hb, hle⟩ := Built.create.of_addAll (by decide) List.Pairwise.nil ha
  rw [List.nil_append] at hb
  unfold SSTableWriter.finish at hf
  split_ifs at hf
  · cases hf
  obtain ⟨w', hflush, hf⟩ := ok_of_bind hf
  obtain ⟨n, -, hf⟩ := ok_of_bind hf
  have hlen := Built.create.length_indexBytes (by decide) (fun _ => rfl) ha hflush
  obtain ⟨cs, hb'⟩ : ∃ cs, Built w' es cs [] := by
    by_cases hcur : cur = []
    · subst hcur
      cases hb.flushBlock_nil.symm.trans hflush
      exact ⟨chunks, hb⟩
    · have hclose := hb.flushBlock hcur
      split_ifs at hclose
      · obtain ⟨w'', h', hb'⟩ := hclose
        cases h'.symm.trans hflush
        exact ⟨_, hb'⟩
      · cases hclose.symm.trans hflush
  cases hf
  rw [← hb'.indexBytes, hlen]
  exact Nat.zero_add _

/-- **Recorded lengths**: the index stands in the file in front of the footer, and the footer has its
true length and number of entries exactly if the index of the entries has less than `2^32` bytes. -/
theorem footer_lengths_iff (h : writeTable es = .ok (some (file, m))) :
    ∃ pre index, file = pre ++ (index ++ m.footer.bytes) ∧ pre.length = m.footer.indexOff ∧
      index = m.index.flatMap IndexedKey.bytes ∧
      (m.footer.indexLen = index.length ∧ m.footer.indexCount = m.index.length ↔
        indexSize blockHeader es < 2 ^ 32) := by
  have hlen := length_index_of_writeTable h
  obtain ⟨-, b, rfl, rfl, rfl⟩ := writeTable_some h
  refine ⟨blocksBytes b.chunks ++ (be 4 b.bloom.bytes.length ++ b.bloom.bytes), b.indexBytes, ?_, ?_,
    rfl, ?_⟩
  · simp [Blocks.bytes, Blocks.tableMeta]
  · simp [Blocks.tableMeta, Blocks.footer, BloomFilter.diskSize]
  · have hl : b.tableMeta.footer.indexLen = b.indexBytes.length % 2 ^ 32 := indexLen_eq b.index
    have hc : b.tableMeta.footer.indexCount = b.index.length % 2 ^ 32 := rfl
    have hn : 20 * b.index.length ≤ b.indexBytes.length := length_le_flatMap_bytes b.index
    have hi : b.indexBytes.length = indexSize blockHeader b.entries := hlen
    have hx : b.tableMeta.index = b.index := rfl
    rw [hl, hc, hx, ← hi]
    omega

end footer

theorem footer_lengths_iff_twoVersions :
    ∃ file m pre index, @writeTable crc32 twoVersions = .ok (some (file, m)) ∧
      file = pre ++ (index ++ m.footer.bytes) ∧
      m.footer.indexLen = index.length ∧ m.footer.indexCount = m.index.length := by
  obtain ⟨file, m, h, -, -⟩ := writeTable_twoVersions
  obtain ⟨pre, index, hf, -, -, hiff⟩ := @footer_lengths_iff crc32 _ _ _ h
  exact ⟨file, m, pre, index, h, hf, hiff.mpr (by decide)⟩

/-- A version of a key of 65517 bytes, which fills a block. -/
def wideEntry : Entry := (⟨.repeated 65517 0x6b, 1⟩, .delete)

theorem wideEntry_key_diskSize : wideEntry.1.diskSize = 65527 := by
  have hlen : wideEntry.1.user.len = 65517 := Str.len_repeated 65517 0x6b rfl
  rw [Key.diskSize, Key.heapSize, hlen]

theorem wideEntry_diskSize : wideEntry.diskSize = 65529 := by
  rw [Entry.diskSize, wideEntry_key_diskSize]
  rfl

theorem wide_wideEntry : wideEntry.Wide := by
  rw [Entry.Wide, wideEntry_diskSize]
  decide

theorem wideEntry_fits : wideEntry.Fits := by
  have hlen : wideEntry.1.user.len = 65517 := Str.len_repeated 65517 0x6b rfl
  refine ⟨?_, show 0 < 2 ^ 16 by decide⟩
  rw [Key.Fits, hlen]
  decide

theorem indexSize_wide (n : ℕ) :
    indexSize blockHeader (List.replicate n wideEntry) = n * 65537 := by
  induction n with
  | zero => rfl
  | succ n ih =>
      have hb : blockSize < blockHeader + wideEntry.diskSize := by
        rw [wideEntry_diskSize]
        decide
      rw [List.replicate_succ, indexSize, if_pos (.inl hb), ih, wideEntry_key_diskSize]
      ring

/-- Wide entries are accepted, and so is the table of them. -/
theorem writeTable_wide [Crc32] {n : ℕ} (hpos : 0 < n) (hn : n ≤ 2 ^ 20) :
    ∃ file m, writeTable (List.replicate n wideEntry) = .ok (some (file, m)) := by
  have hall : ∀ e ∈ List.replicate n wideEntry, e = wideEntry := fun e he =>
    List.eq_of_mem_replicate he
  have hs : ([] ++ List.replicate n wideEntry).Pairwise fun a b : Entry => a.1 ≤ b.1 :=
    List.pairwise_replicate.mpr (.inr le_rfl)
  rcases Built.create.addAll (by decide) hs fun e he => hall e he ▸ wideEntry_fits with
    ⟨-, w, chunks, cur, hw, hb, hle⟩ | ⟨hfits, -⟩
  · have hne : List.replicate n wideEntry ≠ [] :=
      List.ne_nil_of_length_pos (by rwa [List.length_replicate])
    have hfin := hb.finish hle hne
    have hbloom : bloomLen (newest (List.replicate n wideEntry)).length < 2 ^ 32 := by
      have hl := (newest_sublist (List.replicate n wideEntry)).length_le
      rw [List.length_replicate] at hl
      simp only [bloomLen, BloomFilter.byteCount, bitsPerKey]
      omega
    rw [List.nil_append, if_pos hbloom] at hfin
    obtain ⟨b, -, hfin⟩ := hfin
    refine ⟨b.bytes, b.tableMeta, ?_⟩
    rw [writeTable, hw]
    exact hfin
  · exact absurd (blocksFit_of_wide fun e he => hall e he ▸ wide_wideEntry) hfits

/-- 65536 versions that fill a block each make an index of `2^32 + 2^16` bytes, of which the footer
records `2^16`, and the table cannot be opened again. -/
theorem footer_lengths_wide :
    ∃ file m, @writeTable crc32 (List.replicate 65536 wideEntry) = .ok (some (file, m)) ∧
      (m.index.flatMap IndexedKey.bytes).length = 2 ^ 32 + 2 ^ 16 ∧ m.footer.indexLen = 2 ^ 16 ∧
      ∃ e, SSTableMeta.read file = .error e := by
  obtain ⟨file, m, h⟩ := @writeTable_wide crc32 65536 (by decide) (by decide)
  have hlen := @length_index_of_writeTable crc32 _ _ _ h
  rw [indexSize_wide] at hlen
  obtain ⟨-, b, he, rfl, rfl⟩ := @writeTable_some crc32 _ _ _ h
  have hl : b.indexBytes.length = 2 ^ 32 + 2 ^ 16 := hlen
  refine ⟨_, _, h, hlen, ?_, @Blocks.read_error b crc32 ?_ ?_⟩
  · rw [show b.tableMeta.footer.indexLen = b.indexBytes.length % 2 ^ 32 from indexLen_eq b.index, hl]
    decide
  · refine b.indexOff_lt_of_wide (?_) ?_
    · intro e he'
      rw [he] at he'
      exact List.eq_of_mem_replicate he' ▸ wide_wideEntry
    · rw [he, List.length_replicate]
      decide
  · intro c hc
    have hmem : c ∈ b.chunks := List.mem_of_mem_head? hc
    obtain ⟨e, hec, hk⟩ := lastKeyOf_mem (b.ne_nil c hmem)
    have hw : e = wideEntry := by
      refine List.eq_of_mem_replicate (n := 65536) (he ▸ ?_)
      exact List.mem_flatten_of_mem hmem hec
    rw [hl, ← hk, hw, wideEntry_key_diskSize]
    decide

end LowDB
