import LowDB.Sstable.Writer

/-! # What the table writer writes

`Built w es chunks cur` describes the writer after the entries `es`: the closed blocks hold the
entries `chunks`, the open one holds `cur`.  An `add` in order is refused exactly if it closes a
block too long for its `u16` length (`Built.add`), and a run of them exactly if some block does not
fit (`Built.addAll`); `finish` then writes the table `Blocks.bytes`.

For a memtable whose entries passed the length checks of the log this gives the main result,
`flush_ok_iff`: a flush succeeds exactly if the blocks fit. -/

namespace LowDB

open Codec

/-! ### What the writer holds -/

/-- The bytes of a list of entries. -/
def payload (es : List Entry) : Bytes := es.flatMap entryBytes

/-- The length of a block with these entries, header included. -/
def blockLen (es : List Entry) : ℕ := blockHeader + (es.map Entry.diskSize).sum

@[simp] theorem length_payload (es : List Entry) :
    (payload es).length = (es.map Entry.diskSize).sum := by
  simp [payload, List.length_flatMap]

theorem blockLen_concat (es : List Entry) (e : Entry) :
    blockLen (es ++ [e]) = blockLen es + e.diskSize := by
  simp [blockLen, Nat.add_assoc]

theorem diskSize_entry_pos (e : Entry) : 12 ≤ e.diskSize := by
  simp only [Entry.diskSize, Key.diskSize, Key.heapSize, Value.diskSize]
  omega

/-- The last key of a block. -/
def lastKeyOf (es : List Entry) : Key := (es.getLast?.map Prod.fst).getD ⟨.empty, 0⟩

/-- The index of blocks written one after the other from `off` on. -/
def indexFrom : ℕ → List (List Entry) → List IndexedKey
  | _, [] => []
  | off, c :: cs => ⟨lastKeyOf c, off, blockLen c⟩ :: indexFrom (off + blockLen c) cs

/-- The bytes of blocks before they are written, one after the other. -/
def blocksLen (cs : List (List Entry)) : ℕ := (cs.map blockLen).sum

theorem indexFrom_concat (off : ℕ) (cs : List (List Entry)) (c : List Entry) :
    indexFrom off (cs ++ [c]) =
      indexFrom off cs ++ [⟨lastKeyOf c, off + blocksLen cs, blockLen c⟩] := by
  induction cs generalizing off with
  | nil => rfl
  | cons d ds ih =>
      rw [List.cons_append, indexFrom, ih, indexFrom, List.cons_append, blocksLen, blocksLen,
        List.map_cons, List.sum_cons, Nat.add_assoc]

/-- The smallest sequence number of a table. -/
def minSeqOf : List Entry → ℕ
  | [] => 0
  | e :: es => es.foldl (fun m e => min m e.1.seq.toNat) e.1.seq.toNat

/-- The hashes given to the bloom filter: one for each run of a user key. -/
def hashesOf (es : List Entry) : List UInt64 :=
  (newest es).map fun e => BloomFilter.hash64 e.1.user

/-- The length of the bloom filter for `n` user keys. -/
def bloomLen (n : ℕ) : ℕ := BloomFilter.byteCount n bitsPerKey + 1

theorem length_bloomOf (es : List Entry) :
    (BloomFilter.build (hashesOf es) bitsPerKey).bytes.length = bloomLen (newest es).length := by
  rw [BloomFilter.length_build, hashesOf, List.length_map]
  rfl

section built
variable [Crc32]

/-- A block as it is written. -/
def blockBytes (es : List Entry) : Bytes :=
  be 4 (Crc32.hash (payload es)).toNat ++
    (be 2 ((es.map Entry.diskSize).sum) ++ payload es)

@[simp] theorem length_blockBytes (es : List Entry) : (blockBytes es).length = blockLen es := by
  simp only [blockBytes, List.length_append, length_be, length_payload, blockLen, blockHeader]
  omega

/-- The blocks written one after the other. -/
def blocksBytes (cs : List (List Entry)) : Bytes := cs.flatMap blockBytes

@[simp] theorem length_blocksBytes (cs : List (List Entry)) :
    (blocksBytes cs).length = blocksLen cs := by
  simp [blocksBytes, blocksLen, List.length_flatMap]

/-- The writer `w` has taken the entries `es`; `chunks` are in closed blocks, `cur` in the open
one. -/
structure Built (w : SSTableWriter) (es : List Entry) (chunks : List (List Entry))
    (cur : List Entry) : Prop where
  entries_eq : chunks.flatten ++ cur = es
  ne_nil : ∀ c ∈ chunks, c ≠ []
  short : ∀ c ∈ chunks, blockLen c < 2 ^ 16
  fits : ∀ e ∈ es, e.Fits
  file : w.file = blocksBytes chunks
  block : w.block = SSTableWriter.resetBlock ++ payload cur
  offset : w.offset = blocksLen chunks
  index : w.index = indexFrom 0 chunks
  indexBytes : w.indexBytes = w.index.flatMap IndexedKey.bytes
  hashes : w.hashes = hashesOf es
  count : w.entries = es.length
  firstKey : w.firstKey = es.head?.map Prod.fst
  lastKey : w.lastKey = es.getLast?.map Prod.fst
  smallest : w.smallestSeq = minSeqOf es
  largest : w.largestSeq = maxSeqOf 0 es

namespace Built

variable {w : SSTableWriter} {es cur : List Entry} {chunks : List (List Entry)} {e : Entry}

theorem create : Built .create [] [] [] where
  entries_eq := rfl
  ne_nil := fun _ h => nomatch h
  short := fun _ h => nomatch h
  fits := fun _ h => nomatch h
  file := rfl
  block := rfl
  offset := rfl
  index := rfl
  indexBytes := rfl
  hashes := rfl
  count := rfl
  firstKey := rfl
  lastKey := rfl
  smallest := rfl
  largest := rfl

theorem length_block (h : Built w es chunks cur) : w.block.length = blockLen cur := by
  rw [h.block, List.length_append, length_payload]
  rfl

/-- Taking one more entry. -/
theorem push (h : Built w es chunks cur) (hfit : e.Fits) :
    Built (w.push e.1 (entryBytes e)) (es ++ [e]) chunks (cur ++ [e]) where
  entries_eq := by rw [← h.entries_eq, List.append_assoc]
  ne_nil := h.ne_nil
  short := h.short
  fits := by
    intro x hx
    rcases List.mem_append.mp hx with hx | hx
    · exact h.fits x hx
    · rw [List.mem_singleton.mp hx]
      exact hfit
  file := h.file
  block := by simp [SSTableWriter.push, h.block, payload]
  offset := h.offset
  index := h.index
  indexBytes := h.indexBytes
  hashes := by
    simp only [SSTableWriter.push, h.hashes, h.lastKey, hashesOf, newest_concat]
    cases es.getLast? with
    | none => simp
    | some l => by_cases hu : l.1.user = e.1.user <;> simp [hu]
  count := by simp [SSTableWriter.push, h.count]
  firstKey := by
    simp only [SSTableWriter.push, h.firstKey]
    cases es <;> simp
  lastKey := by simp [SSTableWriter.push]
  smallest := by
    simp only [SSTableWriter.push, h.firstKey, h.smallest]
    cases es <;> simp [minSeqOf]
  largest := by
    simp only [SSTableWriter.push, h.firstKey, h.largest]
    cases es <;> simp [maxSeqOf]

theorem sealBlock_eq (es : List Entry) :
    SSTableWriter.sealBlock (SSTableWriter.resetBlock ++ payload es)
      ((es.map Entry.diskSize).sum) = blockBytes es := by
  have hdrop : (SSTableWriter.resetBlock ++ payload es).drop blockHeader = payload es :=
    List.drop_left' rfl
  have hdrop4 : (SSTableWriter.resetBlock ++ payload es).drop 4 = be 2 0 ++ payload es := rfl
  rw [SSTableWriter.sealBlock, hdrop, blockBytes]
  generalize Crc32.hash (payload es) = crc
  have hp : patch (SSTableWriter.resetBlock ++ payload es) 0 (be 4 crc.toNat) =
      be 4 crc.toNat ++ (be 2 0 ++ payload es) := by
    rw [patch, length_be, Nat.zero_add, hdrop4]
    rfl
  have hl : (be 4 crc.toNat).length = 4 := length_be 4 _
  rw [hp, patch, length_be, List.take_left' hl, ← List.drop_drop, List.drop_left' hl]
  rfl

/-- Closing the open block, when it is not empty. -/
theorem flushBlock (h : Built w es chunks cur) (hne : cur ≠ []) :
    if blockLen cur < 2 ^ 16 then
      ∃ w', w.flushBlock = .ok w' ∧ Built w' es (chunks ++ [cur]) []
    else w.flushBlock = .error .tryFromInt := by
  obtain ⟨l, x, rfl⟩ := (List.eq_nil_or_concat' cur).resolve_left hne
  have hlong : ¬ w.block.length ≤ blockHeader := by
    have := diskSize_entry_pos x
    rw [h.length_block, blockLen_concat, blockLen]
    omega
  have hes : es = (chunks.flatten ++ l) ++ [x] := by
    rw [← h.entries_eq, List.append_assoc]
  have hlast : w.lastKey = some x.1 := by
    rw [h.lastKey, hes]
    simp
  have hlk : lastKeyOf (l ++ [x]) = x.1 := by simp [lastKeyOf]
  rw [SSTableWriter.flushBlock, if_neg hlong, hlast, h.length_block]
  by_cases hs : blockLen (l ++ [x]) < 2 ^ 16
  · rw [if_pos hs]
    have hx : x.1.Fits := (h.fits x (by rw [hes]; simp)).1
    have hw : (⟨x.1, w.offset, blockLen (l ++ [x])⟩ : IndexedKey).write =
        .ok (IndexedKey.bytes ⟨x.1, w.offset, blockLen (l ++ [x])⟩) := IndexedKey.write_of_fits hx
    have hpl : blockLen (l ++ [x]) - blockHeader = ((l ++ [x]).map Entry.diskSize).sum :=
      Nat.add_sub_cancel_left ..
    refine ⟨_, by rw [tryU16_ok hs]; simp only [bind, Except.bind, hw, hpl]; rfl, ?_⟩
    exact
      { entries_eq := by simpa using h.entries_eq
        ne_nil := by
          intro c hc
          rcases List.mem_append.mp hc with hc | hc
          · exact h.ne_nil c hc
          · rw [List.mem_singleton.mp hc]
            exact hne
        short := by
          intro c hc
          rcases List.mem_append.mp hc with hc | hc
          · exact h.short c hc
          · rw [List.mem_singleton.mp hc]
            exact hs
        fits := h.fits
        file := by
          simp only [h.block, sealBlock_eq, h.file, blocksBytes, List.flatMap_append,
            List.flatMap_singleton]
        block := by simp [payload]
        offset := by simp [h.offset, blocksLen]
        index := by
          simp only [indexFrom_concat, h.index, h.offset, Nat.zero_add, hlk]
        indexBytes := by simp [h.indexBytes]
        hashes := h.hashes
        count := h.count
        firstKey := h.firstKey
        lastKey := hlast.symm.trans h.lastKey
        smallest := h.smallest
        largest := h.largest }
  · rw [if_neg hs, tryU16_error hs]
    rfl

theorem flushBlock_nil (h : Built w es chunks []) : w.flushBlock = .ok w := by
  rw [SSTableWriter.flushBlock, h.length_block, if_pos (by simp [blockLen])]

/-- One `add` of an entry in order: it is refused exactly if it closes a block that is too
long. -/
theorem add (h : Built w es chunks cur) (hlast : ∀ l ∈ es.getLast?, l.1 ≤ e.1)
    (hfit : e.Fits) :
    if blockSize < blockLen (cur ++ [e]) then
      if blockLen (cur ++ [e]) < 2 ^ 16 then
        ∃ w', w.add e.1 e.2 = .ok w' ∧ Built w' (es ++ [e]) (chunks ++ [cur ++ [e]]) []
      else w.add e.1 e.2 = .error .tryFromInt
    else ∃ w', w.add e.1 e.2 = .ok w' ∧ Built w' (es ++ [e]) chunks (cur ++ [e]) := by
  have hp := h.push hfit
  have hadd : w.add e.1 e.2 =
      if blockSize < blockLen (cur ++ [e]) then (w.push e.1 (entryBytes e)).flushBlock
      else .ok (w.push e.1 (entryBytes e)) := by
    have he : SSTableWriter.add.addEncoded e.1 e.2 w =
        if blockSize < blockLen (cur ++ [e]) then (w.push e.1 (entryBytes e)).flushBlock
        else .ok (w.push e.1 (entryBytes e)) := by
      rw [SSTableWriter.add.addEncoded, encode_eq, if_pos hfit, ← hp.length_block]
      rfl
    rw [SSTableWriter.add, h.lastKey]
    cases hl : es.getLast? with
    | none => exact he
    | some l => exact (if_neg (not_lt.mpr (hlast l hl))).trans he
  rw [hadd]
  by_cases hb : blockSize < blockLen (cur ++ [e])
  · simp only [if_pos hb]
    exact hp.flushBlock (by simp)
  · simp only [if_neg hb]
    exact ⟨_, rfl, hp⟩

/-- An `add` that is not refused was given a fitting entry in order. -/
theorem of_add {w' : SSTableWriter} (h : Built w es chunks cur)
    (ha : w.add e.1 e.2 = .ok w') :
    e.Fits ∧ (∀ l ∈ es.getLast?, l.1 ≤ e.1) ∧
      ∃ chunks' cur', Built w' (es ++ [e]) chunks' cur' ∧ blockLen cur' ≤ blockSize := by
  have hlast : ∀ l ∈ es.getLast?, l.1 ≤ e.1 := by
    intro l hl
    by_contra hlt
    rw [SSTableWriter.add, h.lastKey, hl] at ha
    simp only [Option.map_some, if_pos (not_le.mp hlt)] at ha
    cases ha
  have hfit : e.Fits := by
    by_contra hn
    have he : SSTableWriter.add.addEncoded e.1 e.2 w = .error .tryFromInt := by
      rw [SSTableWriter.add.addEncoded, encode_eq, if_neg hn]
      rfl
    rw [SSTableWriter.add, h.lastKey] at ha
    cases hl : es.getLast? with
    | none =>
        rw [hl] at ha
        cases he.symm.trans ha
    | some l =>
        rw [hl] at ha
        simp only [Option.map_some, if_neg (not_lt.mpr (hlast l hl))] at ha
        cases he.symm.trans ha
  refine ⟨hfit, hlast, ?_⟩
  have hadd := h.add hlast hfit
  by_cases hb : blockSize < blockLen (cur ++ [e])
  · rw [if_pos hb] at hadd
    by_cases hs : blockLen (cur ++ [e]) < 2 ^ 16
    · rw [if_pos hs] at hadd
      obtain ⟨w₁, h₁, hw⟩ := hadd
      cases h₁.symm.trans ha
      exact ⟨_, _, hw, by decide⟩
    · rw [if_neg hs] at hadd
      cases hadd.symm.trans ha
  · rw [if_neg hb] at hadd
    obtain ⟨w₁, h₁, hw⟩ := hadd
    cases h₁.symm.trans ha
    exact ⟨_, _, hw, Nat.le_of_not_lt hb⟩

end Built

/-! ### A run of `add` calls -/

/-- No block gets too long for its `u16` length, when the open block has `used` bytes and the
entries `es` follow. -/
def BlocksFit : ℕ → List Entry → Prop
  | _, [] => True
  | used, e :: es =>
    if blockSize < used + e.diskSize then used + e.diskSize < 2 ^ 16 ∧ BlocksFit blockHeader es
    else BlocksFit (used + e.diskSize) es

instance decidableBlocksFit : ∀ used es, Decidable (BlocksFit used es)
  | _, [] => instDecidableTrue
  | used, e :: es =>
    have := decidableBlocksFit blockHeader es
    have := decidableBlocksFit (used + e.diskSize) es
    inferInstanceAs (Decidable (if blockSize < used + e.diskSize then
      used + e.diskSize < 2 ^ 16 ∧ BlocksFit blockHeader es
      else BlocksFit (used + e.diskSize) es))

namespace Built

variable {w : SSTableWriter} {es cur rest : List Entry} {chunks : List (List Entry)}

/-- The entries `rest` are taken exactly if every block they close fits. -/
theorem addAll (h : Built w es chunks cur) (hle : blockLen cur ≤ blockSize)
    (hs : (es ++ rest).Pairwise fun a b => a.1 ≤ b.1) (hfit : ∀ e ∈ rest, e.Fits) :
    (BlocksFit (blockLen cur) rest ∧ ∃ w' chunks' cur', w.addAll rest = .ok w' ∧
        Built w' (es ++ rest) chunks' cur' ∧ blockLen cur' ≤ blockSize) ∨
      (¬ BlocksFit (blockLen cur) rest ∧ w.addAll rest = .error .tryFromInt) := by
  induction rest generalizing w es chunks cur with
  | nil => exact .inl ⟨trivial, w, chunks, cur, rfl, by rwa [List.append_nil], hle⟩
  | cons e rest ih =>
      have hlast : ∀ l ∈ es.getLast?, l.1 ≤ e.1 := fun l hl =>
        (List.pairwise_append.mp hs).2.2 l (List.mem_of_getLast? hl) e List.mem_cons_self
      have hs' : ((es ++ [e]) ++ rest).Pairwise fun a b => a.1 ≤ b.1 := by
        rwa [List.append_assoc]
      have hfit' : ∀ x ∈ rest, x.Fits := fun x hx => hfit x (List.mem_cons_of_mem e hx)
      have hadd := h.add hlast (hfit e List.mem_cons_self)
      have hcons : ∀ w₁, w.add e.1 e.2 = .ok w₁ → w.addAll (e :: rest) = w₁.addAll rest := by
        intro w₁ h₁
        rw [SSTableWriter.addAll, List.foldlM_cons, h₁]
        rfl
      rw [BlocksFit, ← blockLen_concat]
      by_cases hb : blockSize < blockLen (cur ++ [e])
      · rw [if_pos hb] at hadd ⊢
        by_cases hl : blockLen (cur ++ [e]) < 2 ^ 16
        · rw [if_pos hl] at hadd
          obtain ⟨w₁, h₁, hw⟩ := hadd
          have hi := ih hw (by decide) hs' hfit'
          rw [← hcons w₁ h₁, List.append_assoc] at hi
          have hnil : blockLen [] = blockHeader := rfl
          simpa only [hl, true_and, hnil, List.singleton_append] using hi
        · rw [if_neg hl] at hadd
          refine .inr ⟨fun h => hl h.1, ?_⟩
          rw [SSTableWriter.addAll, List.foldlM_cons, hadd]
          rfl
      · rw [if_neg hb] at hadd ⊢
        obtain ⟨w₁, h₁, hw⟩ := hadd
        have hi := ih hw (Nat.le_of_not_lt hb) hs' hfit'
        rwa [← hcons w₁ h₁, List.append_assoc] at hi

omit [Crc32] in
theorem pairwise_concat {e : Entry} (hs : es.Pairwise fun a b => a.1 ≤ b.1)
    (hlast : ∀ l ∈ es.getLast?, l.1 ≤ e.1) : (es ++ [e]).Pairwise fun a b => a.1 ≤ b.1 := by
  rcases List.eq_nil_or_concat' es with rfl | ⟨l, x, rfl⟩
  · exact List.pairwise_singleton _ _
  · have hx : x.1 ≤ e.1 := hlast x (by simp)
    refine List.pairwise_append.mpr ⟨hs, List.pairwise_singleton _ _, ?_⟩
    intro a ha b hb
    rw [List.mem_singleton.mp hb]
    rcases List.mem_append.mp ha with ha | ha
    · exact ((List.pairwise_append.mp hs).2.2 a ha x (by simp)).trans hx
    · rwa [List.mem_singleton.mp ha]

/-- A run of `add` calls none of which is refused was given entries in order. -/
theorem of_addAll {w' : SSTableWriter} (h : Built w es chunks cur) (hle : blockLen cur ≤ blockSize)
    (hs : es.Pairwise fun a b => a.1 ≤ b.1) (ha : w.addAll rest = .ok w') :
    ((es ++ rest).Pairwise fun a b => a.1 ≤ b.1) ∧
      ∃ chunks' cur', Built w' (es ++ rest) chunks' cur' ∧ blockLen cur' ≤ blockSize := by
  induction rest generalizing w es chunks cur with
  | nil =>
      cases ha
      exact ⟨by rwa [List.append_nil], chunks, cur, by rwa [List.append_nil], hle⟩
  | cons e rest ih =>
      rw [SSTableWriter.addAll, List.foldlM_cons] at ha
      cases h₁ : w.add e.1 e.2 with
      | error err => rw [h₁] at ha; cases ha
      | ok w₁ =>
          rw [h₁] at ha
          obtain ⟨_, hlast, chunks₁, cur₁, hw, hle₁⟩ := h.of_add h₁
          have hi := ih hw hle₁ (pairwise_concat hs hlast) ha
          rwa [List.append_assoc, List.singleton_append] at hi

end Built

/-! ### The finished table -/

/-- The entries of a table, block by block. -/
structure Blocks where
  chunks : List (List Entry)
  nonempty : chunks ≠ []
  ne_nil : ∀ c ∈ chunks, c ≠ []
  short : ∀ c ∈ chunks, blockLen c < 2 ^ 16
  fits : ∀ c ∈ chunks, ∀ e ∈ c, e.Fits
  bloom_fits : bloomLen (newest chunks.flatten).length < 2 ^ 32

namespace Blocks

def entries (b : Blocks) : List Entry := b.chunks.flatten

def bloom (b : Blocks) : BloomFilter := .build (hashesOf b.entries) bitsPerKey

def index (b : Blocks) : List IndexedKey := indexFrom 0 b.chunks

/-- The bytes of the index. -/
def indexBytes (b : Blocks) : Bytes := b.index.flatMap IndexedKey.bytes

def footer (b : Blocks) : Footer where
  entries := b.entries.length
  bloomOff := blocksLen b.chunks
  indexOff := blocksLen b.chunks + b.bloom.diskSize
  indexLen := SSTableWriter.indexLen b.index
  indexCount := b.index.length % 2 ^ 32
  smallestSeq := minSeqOf b.entries
  largestSeq := maxSeqOf 0 b.entries
  magic := LowDB.magic

/-- The file of the table. -/
def bytes (b : Blocks) : Bytes :=
  blocksBytes b.chunks ++ (be 4 b.bloom.bytes.length ++
    (b.bloom.bytes ++ (b.indexBytes ++ b.footer.bytes)))

/-- The metadata its writer returns. -/
def tableMeta (b : Blocks) : SSTableMeta where
  fileSize := b.footer.indexOff + b.indexBytes.length + footerLen
  bloom := b.bloom
  firstKey := (b.entries.head?.map Prod.fst).getD ⟨.empty, 0⟩
  lastKey := lastKeyOf b.entries
  footer := b.footer
  index := b.index

end Blocks

namespace Built

variable {w : SSTableWriter} {es cur : List Entry} {chunks : List (List Entry)}

theorem finish_nil (h : Built w [] chunks cur) : w.finish = .ok none := by
  have hc : w.entries = 0 := h.count
  rw [SSTableWriter.finish, if_pos hc]

/-- `finish` writes the table of the entries taken, unless the bloom filter is too long for its
`u32` length. -/
theorem finish (h : Built w es chunks cur) (hle : blockLen cur ≤ blockSize) (hne : es ≠ []) :
    if bloomLen (newest es).length < 2 ^ 32 then
      ∃ b : Blocks, b.entries = es ∧ w.finish = .ok (some (b.bytes, b.tableMeta))
    else w.finish = .error .tryFromInt := by
  obtain ⟨w', chunks', hflush, hw⟩ :
      ∃ w' chunks', w.flushBlock = .ok w' ∧ Built w' es chunks' [] := by
    by_cases hcur : cur = []
    · subst hcur
      exact ⟨w, chunks, h.flushBlock_nil, h⟩
    · have hf := h.flushBlock hcur
      have hlt : blockLen cur < 2 ^ 16 := by
        have : blockSize = 4096 := rfl
        omega
      rw [if_pos hlt] at hf
      obtain ⟨w', e, hw⟩ := hf
      exact ⟨w', _, e, hw⟩
  have hes : chunks'.flatten = es := by simpa using hw.entries_eq
  have hcount : w.entries ≠ 0 := by
    rw [h.count]
    exact fun h0 => hne (List.length_eq_zero_iff.mp h0)
  have hlen : (BloomFilter.build w'.hashes bitsPerKey).bytes.length =
      bloomLen (newest es).length := by
    rw [hw.hashes, length_bloomOf]
  rw [SSTableWriter.finish, if_neg hcount, hflush]
  simp only [bind, Except.bind, hlen]
  by_cases hl : bloomLen (newest es).length < 2 ^ 32
  · rw [if_pos hl, tryU32_ok hl]
    let b : Blocks :=
      { chunks := chunks'
        nonempty := fun h0 => hne (by rw [← hes, h0]; rfl)
        ne_nil := hw.ne_nil
        short := hw.short
        fits := fun c hc e he => hw.fits e (by rw [← hes]; exact List.mem_flatten_of_mem hc he)
        bloom_fits := by rwa [hes] }
    refine ⟨b, hes, ?_⟩
    have hen : b.entries = es := hes
    have hbloom : BloomFilter.build w'.hashes bitsPerKey = b.bloom := by
      rw [hw.hashes, Blocks.bloom, hen]
    rw [hbloom] at hlen ⊢
    simp only [pure, Except.pure, Blocks.bytes, Blocks.tableMeta, Blocks.footer, hw.offset,
      hw.file, hw.index, hw.indexBytes, hw.count, hw.smallest, hw.largest, hw.firstKey,
      hw.lastKey, IndexedKey.listDiskSize_eq, hen, hlen]
    rfl
  · rw [if_neg hl, tryU32_error hl]

end Built

/-- `add` for each entry, then `finish`. -/
def writeTable (es : List Entry) : DbResult (Option (Bytes × SSTableMeta)) := do
  let w ← SSTableWriter.create.addAll es
  w.finish

/-- What is written is the table of the entries, and they were given in order. -/
theorem writeTable_some {es : List Entry} {file : Bytes} {m : SSTableMeta}
    (h : writeTable es = .ok (some (file, m))) :
    (es.Pairwise fun a b => a.1 ≤ b.1) ∧
      ∃ b : Blocks, b.entries = es ∧ file = b.bytes ∧ m = b.tableMeta := by
  obtain ⟨w, ha, hf⟩ := ok_of_bind h
  obtain ⟨hs, chunks, cur, hb, hle⟩ := Built.create.of_addAll (by decide) List.Pairwise.nil ha
  rw [List.nil_append] at hb hs
  refine ⟨hs, ?_⟩
  by_cases hne : es = []
  · subst hne
    cases hb.finish_nil.symm.trans hf
  · have hfin := hb.finish hle hne
    by_cases hl : bloomLen (newest es).length < 2 ^ 32
    · rw [if_pos hl] at hfin
      obtain ⟨b, hbe, hfin⟩ := hfin
      cases hfin.symm.trans hf
      exact ⟨b, hbe, rfl, rfl⟩
    · rw [if_neg hl] at hfin
      cases hfin.symm.trans hf

/-- No table is written only for no entries. -/
theorem writeTable_none {es : List Entry} (h : writeTable es = .ok none) : es = [] := by
  obtain ⟨w, ha, hf⟩ := ok_of_bind h
  obtain ⟨_, chunks, cur, hb, hle⟩ := Built.create.of_addAll (by decide) List.Pairwise.nil ha
  rw [List.nil_append] at hb
  by_contra hne
  have hfin := hb.finish hle hne
  by_cases hl : bloomLen (newest es).length < 2 ^ 32
  · rw [if_pos hl] at hfin
    obtain ⟨b, hbe, hfin⟩ := hfin
    cases hfin.symm.trans hf
  · rw [if_neg hl] at hfin
    cases hfin.symm.trans hf

end built

/-- Two versions of one key, the newer one empty. -/
def twoVersions : List Entry :=
  [(⟨.ascii [0x6b], 2⟩, .set .empty), (⟨.ascii [0x6b], 1⟩, .set (.ascii [0x76]))]

/-- They can be written, to a small file. -/
theorem writeTable_twoVersions : ∃ file m, @writeTable crc32 twoVersions = .ok (some (file, m)) ∧
    file.length < 2 ^ 32 ∧ (m.index.flatMap IndexedKey.bytes).length < 2 ^ 32 := by
  have h : (match @writeTable crc32 twoVersions with
    | .ok (some (file, m)) =>
      decide (file.length < 2 ^ 32 ∧ (m.index.flatMap IndexedKey.bytes).length < 2 ^ 32)
    | _ => false) = true := by decide +kernel
  split at h
  case h_1 file m hw => exact ⟨file, m, hw, of_decide_eq_true h⟩
  case h_2 => cases h

end LowDB
