import LowDB.Sstable.Table

/-! # Reopening a table

`SSTableMeta.read` rebuilds the metadata from the file.  It does so faithfully as long as the
length of the index fits its `u32` field (`read_eq`), which `finish` does not check.  The largest
sequence number is read back even otherwise (`largestSeq_of_read`). -/

namespace LowDB

open Codec

/-! ### The parts of the file -/

/-- The footer as it is read back: every field in the width it is written in. -/
theorem decodes_parseFooter (f : Footer) (hm : f.magic = magic) :
    Decodes parseFooter f.bytes
      { entries := f.entries % 256 ^ 8
        bloomOff := f.bloomOff % 256 ^ 8
        indexOff := f.indexOff % 256 ^ 8
        indexLen := f.indexLen % 256 ^ 4
        indexCount := f.indexCount % 256 ^ 4
        smallestSeq := f.smallestSeq % 256 ^ 8
        largestSeq := f.largestSeq % 256 ^ 8
        magic } := by
  apply (decodes_beNat_mod DbError.eof 8 f.entries).bind
  apply (decodes_beNat_mod DbError.eof 8 f.bloomOff).bind
  apply (decodes_beNat_mod DbError.eof 8 f.indexOff).bind
  apply (decodes_beNat_mod DbError.eof 4 f.indexLen).bind
  apply (decodes_beNat_mod DbError.eof 4 f.indexCount).bind
  apply (decodes_beNat_mod DbError.eof 8 f.smallestSeq).bind
  apply (decodes_beNat_mod DbError.eof 8 f.largestSeq).bind
  rw [← List.append_nil (be 4 f.magic)]
  apply (decodes_beNat_mod DbError.eof 4 f.magic).bind
  have hmod : f.magic % 256 ^ 4 = magic := by rw [hm]; rfl
  rw [hmod, if_neg (fun h => h rfl)]
  exact Decodes.pure _

theorem decodes_parseBloom {f : BloomFilter} (h : f.bytes.length < 2 ^ 32) :
    Decodes parseBloom (be 4 f.bytes.length ++ f.bytes) f :=
  (decodes_beNat DbError.eof (w := 4) h).bind ((decodes_take DbError.eof f.bytes).map _)

theorem decodes_parseIndexedKey {i : IndexedKey} (hk : i.key.Fits) (ho : i.blockOff < 2 ^ 64)
    (hl : i.blockLen < 2 ^ 16) : Decodes parseIndexedKey i.bytes i :=
  (decodes_parseKey lossyStr_bytes hk).bind ((decodes_beNat DbError.eof (w := 8) ho).bind
    ((decodes_u16 DbError.eof hl).map fun len => (⟨i.key, i.blockOff, len⟩ : IndexedKey)))

theorem diskSize_indexedKey_pos (i : IndexedKey) : 20 ≤ i.diskSize := by
  simp only [IndexedKey.diskSize, Key.diskSize, Key.heapSize]
  omega

/-- The loop over the index reads the entries whose bytes have the recorded length. -/
theorem decodes_readIndex {index : List IndexedKey}
    (h : ∀ i ∈ index, i.key.Fits ∧ i.blockOff < 2 ^ 64 ∧ i.blockLen < 2 ^ 16) {n : ℕ}
    (hn : (index.flatMap IndexedKey.bytes).length < n) :
    Decodes (readIndex n (index.flatMap IndexedKey.bytes).length)
      (index.flatMap IndexedKey.bytes) index := by
  induction index generalizing n with
  | nil =>
      obtain ⟨n, rfl⟩ : ∃ k, n = k + 1 := ⟨n - 1, by omega⟩
      exact Decodes.pure []
  | cons i is ih =>
      obtain ⟨n, rfl⟩ : ∃ k, n = k + 1 := ⟨n - 1, by omega⟩
      obtain ⟨hk, ho, hl⟩ := h i List.mem_cons_self
      have hpos := diskSize_indexedKey_pos i
      have hlen : ((i :: is).flatMap IndexedKey.bytes).length =
          i.diskSize + (is.flatMap IndexedKey.bytes).length := by
        rw [List.flatMap_cons, List.length_append, IndexedKey.length_bytes]
      have hi := ih (fun j hj => h j (List.mem_cons_of_mem i hj)) (n := n) (by omega)
      rw [readIndex, if_neg (by omega)]
      apply (decodes_parseIndexedKey hk ho hl).bind
      rw [if_neg (by omega), hlen, Nat.add_sub_cancel_left]
      exact hi.map fun index => i :: index

theorem parseAt_eq {α : Type} {p : Parser DbError α} {bs pre post : Bytes} {a : α}
    (h : Decodes p bs a) {off : ℕ} (hoff : pre.length = off) :
    parseAt p (pre ++ (bs ++ post)) off = .ok a := by
  rw [parseAt, List.drop_left' hoff, h post]
  rfl

/-! ### Sizes -/

theorem mem_indexFrom {off : ℕ} {cs : List (List Entry)} {i : IndexedKey}
    (h : i ∈ indexFrom off cs) :
    ∃ c ∈ cs, i.key = lastKeyOf c ∧ i.blockLen = blockLen c ∧ i.blockOff ≤ off + blocksLen cs := by
  induction cs generalizing off with
  | nil => cases h
  | cons c cs ih =>
      have hb : blocksLen (c :: cs) = blockLen c + blocksLen cs := rfl
      rcases List.mem_cons.mp h with rfl | h
      · exact ⟨c, List.mem_cons_self, rfl, rfl, Nat.le_add_right _ _⟩
      · obtain ⟨d, hd, hk, hl, ho⟩ := ih h
        exact ⟨d, List.mem_cons_of_mem c hd, hk, hl, by omega⟩

theorem length_indexFrom (off : ℕ) (cs : List (List Entry)) :
    (indexFrom off cs).length = cs.length := by
  induction cs generalizing off with
  | nil => rfl
  | cons c cs ih => rw [indexFrom, List.length_cons, List.length_cons, ih]

theorem length_le_flatMap_bytes (index : List IndexedKey) :
    20 * index.length ≤ (index.flatMap IndexedKey.bytes).length := by
  induction index with
  | nil => exact Nat.zero_le _
  | cons i is ih =>
      have := diskSize_indexedKey_pos i
      rw [List.flatMap_cons, List.length_append, IndexedKey.length_bytes, List.length_cons]
      omega

theorem blocksLen_le {cs : List (List Entry)} (h : ∀ c ∈ cs, blockLen c < 2 ^ 16) :
    blocksLen cs ≤ 2 ^ 16 * cs.length := by
  induction cs with
  | nil => exact Nat.zero_le _
  | cons c cs ih =>
      have hc := h c List.mem_cons_self
      have hcs := ih fun d hd => h d (List.mem_cons_of_mem c hd)
      have hb : blocksLen (c :: cs) = blockLen c + blocksLen cs := rfl
      rw [List.length_cons]
      omega

theorem length_le_blockLen (c : List Entry) : c.length ≤ blockLen c := by
  induction c with
  | nil => exact Nat.zero_le _
  | cons e es ih =>
      have := diskSize_entry_pos e
      simp only [blockLen, List.map_cons, List.sum_cons, List.length_cons] at ih ⊢
      omega

theorem length_flatten_le (cs : List (List Entry)) : cs.flatten.length ≤ blocksLen cs := by
  induction cs with
  | nil => exact Nat.zero_le _
  | cons c cs ih =>
      have := length_le_blockLen c
      have hb : blocksLen (c :: cs) = blockLen c + blocksLen cs := rfl
      rw [List.flatten_cons, List.length_append]
      omega

/-- A running minimum or maximum is one of the values it has seen. -/
theorem foldl_choice {α : Type} (op : ℕ → ℕ → ℕ) (hop : ∀ a b, op a b = a ∨ op a b = b)
    (f : α → ℕ) (xs : List α) (m : ℕ) :
    xs.foldl (fun m x => op m (f x)) m = m ∨
      ∃ x ∈ xs, f x = xs.foldl (fun m x => op m (f x)) m := by
  induction xs generalizing m with
  | nil => exact .inl rfl
  | cons a xs ih =>
      rw [List.foldl_cons]
      rcases ih (op m (f a)) with h | ⟨x, hx, h⟩
      · rcases hop m (f a) with hm | hm
        · exact .inl (h.trans hm)
        · exact .inr ⟨a, List.mem_cons_self, (h.trans hm).symm⟩
      · exact .inr ⟨x, List.mem_cons_of_mem _ hx, h⟩

theorem exists_minSeqOf {es : List Entry} (h : es ≠ []) :
    ∃ e ∈ es, e.1.seq.toNat = minSeqOf es := by
  obtain ⟨a, es, rfl⟩ := List.exists_cons_of_ne_nil h
  rcases foldl_choice min min_choice (fun e : Entry => e.1.seq.toNat) es a.1.seq.toNat with
    hm | ⟨e, he, hm⟩
  · exact ⟨a, List.mem_cons_self, hm.symm⟩
  · exact ⟨e, List.mem_cons_of_mem _ he, hm⟩

theorem exists_maxSeqOf {es : List Entry} (h : es ≠ []) :
    ∃ e ∈ es, e.1.seq.toNat = maxSeqOf 0 es := by
  obtain ⟨a, es, rfl⟩ := List.exists_cons_of_ne_nil h
  rcases foldl_choice max max_choice (fun e : Entry => e.1.seq.toNat) es
    (max 0 a.1.seq.toNat) with hm | ⟨e, he, hm⟩
  · exact ⟨a, List.mem_cons_self, (hm.trans (Nat.zero_max _)).symm⟩
  · exact ⟨e, List.mem_cons_of_mem _ he, hm⟩

theorem minSeqOf_le {es : List Entry} {e : Entry} (h : e ∈ es) : minSeqOf es ≤ e.1.seq.toNat := by
  have hle : ∀ (es : List Entry) (m : ℕ), es.foldl (fun m e => min m e.1.seq.toNat) m ≤ m ∧
      ∀ e ∈ es, es.foldl (fun m e => min m e.1.seq.toNat) m ≤ e.1.seq.toNat := by
    intro es
    induction es with
    | nil => exact fun m => ⟨le_rfl, fun _ h => nomatch h⟩
    | cons a es ih =>
        intro m
        obtain ⟨hm, hes⟩ := ih (min m a.1.seq.toNat)
        refine ⟨hm.trans (min_le_left _ _), List.forall_mem_cons.mpr ⟨?_, hes⟩⟩
        exact hm.trans (min_le_right _ _)
  cases es with
  | nil => cases h
  | cons a es =>
      rcases List.mem_cons.mp h with rfl | h
      · exact (hle es _).1
      · exact (hle es _).2 e h

theorem minSeqOf_lt (es : List Entry) : minSeqOf es < 2 ^ 64 := by
  cases es with
  | nil => decide
  | cons e es => exact (minSeqOf_le List.mem_cons_self).trans_lt e.1.seq.toNat_lt

theorem maxSeqOf_lt {m : ℕ} (hm : m < 2 ^ 64) (es : List Entry) : maxSeqOf m es < 2 ^ 64 := by
  induction es generalizing m with
  | nil => exact hm
  | cons e es ih => exact ih (max_lt hm e.1.seq.toNat_lt)

theorem indexLen_eq (index : List IndexedKey) :
    SSTableWriter.indexLen index = (index.flatMap IndexedKey.bytes).length % 2 ^ 32 := by
  have h : ∀ n, index.foldl (fun n i => (n + i.diskSize % 2 ^ 32) % 2 ^ 32) (n % 2 ^ 32) =
      (n + (index.flatMap IndexedKey.bytes).length) % 2 ^ 32 := by
    induction index with
    | nil => exact fun n => rfl
    | cons i is ih =>
        intro n
        have hstep : (n % 2 ^ 32 + i.diskSize % 2 ^ 32) % 2 ^ 32 = (n + i.diskSize) % 2 ^ 32 := by
          omega
        rw [List.foldl_cons, hstep, ih, List.flatMap_cons, List.length_append,
          IndexedKey.length_bytes, Nat.add_assoc]
  have h0 := h 0
  rwa [Nat.zero_add] at h0

/-! ### The metadata of a written table -/

namespace Blocks

variable (b : Blocks)

/-- The length of the index fits the footer's field for it. -/
def IndexFits : Prop := b.indexBytes.length < 2 ^ 32

instance : Decidable b.IndexFits := inferInstanceAs (Decidable (_ < _))

theorem largestSeq_lt : b.footer.largestSeq < 256 ^ 8 := maxSeqOf_lt (by decide) _

section bytes
variable [Crc32]

theorem length_bytes : b.bytes.length = b.tableMeta.fileSize := by
  simp only [bytes, tableMeta, footer, List.length_append, length_blocksBytes, length_be,
    Footer.length_bytes, BloomFilter.diskSize]
  omega

/-- The footer of the file is read back with every field in the width it is written in. -/
theorem parseAt_footer_mod :
    parseAt parseFooter b.bytes (b.bytes.length - footerLen) = .ok
      { entries := b.footer.entries % 256 ^ 8
        bloomOff := b.footer.bloomOff % 256 ^ 8
        indexOff := b.footer.indexOff % 256 ^ 8
        indexLen := b.footer.indexLen % 256 ^ 4
        indexCount := b.footer.indexCount % 256 ^ 4
        smallestSeq := b.footer.smallestSeq % 256 ^ 8
        largestSeq := b.footer.largestSeq % 256 ^ 8
        magic } := by
  have hbytes : b.bytes = (blocksBytes b.chunks ++ (be 4 b.bloom.bytes.length ++
      (b.bloom.bytes ++ b.indexBytes))) ++ (b.footer.bytes ++ []) := by
    simp [bytes]
  have hoff : (blocksBytes b.chunks ++ (be 4 b.bloom.bytes.length ++
      (b.bloom.bytes ++ b.indexBytes))).length = b.bytes.length - footerLen := by
    have hl := congrArg List.length hbytes
    rw [List.append_nil, List.length_append, Footer.length_bytes] at hl
    omega
  have hparse := @parseAt_eq _ _ _ _ [] _ (decodes_parseFooter b.footer rfl) _ hoff
  rwa [← hbytes] at hparse

theorem parseAt_footer :
    ∃ f, parseAt parseFooter b.bytes (b.bytes.length - footerLen) = .ok f ∧
      f.largestSeq = b.footer.largestSeq ∧ f.bloomOff = b.footer.bloomOff % 256 ^ 8 ∧
      (b.IndexFits → f = b.footer) := by
  refine ⟨_, b.parseAt_footer_mod, Nat.mod_eq_of_lt b.largestSeq_lt, rfl, ?_⟩
  intro hfit
  -- with an index below `2 ^ 32` bytes every field of the footer has its true value
  have hbloom : b.bloom.bytes.length < 2 ^ 32 := by
    have hl := b.bloom_fits
    rwa [← length_bloomOf] at hl
  have hn : 20 * b.index.length ≤ b.indexBytes.length := length_le_flatMap_bytes _
  have hc : b.index.length = b.chunks.length := length_indexFrom 0 _
  have hblocks := blocksLen_le b.short
  have hentries : b.entries.length ≤ blocksLen b.chunks := length_flatten_le _
  have hoff : b.footer.indexOff = blocksLen b.chunks + (4 + b.bloom.bytes.length) := rfl
  have hmin := minSeqOf_lt b.entries
  have hmax := b.largestSeq_lt
  unfold IndexFits at hfit
  have hilen : b.footer.indexLen = b.indexBytes.length := by
    rw [footer, indexLen_eq]
    exact Nat.mod_eq_of_lt hfit
  have h₁ : b.footer.entries % 256 ^ 8 = b.footer.entries :=
    Nat.mod_eq_of_lt (show b.entries.length < _ by omega)
  have h₂ : b.footer.bloomOff % 256 ^ 8 = b.footer.bloomOff :=
    Nat.mod_eq_of_lt (show blocksLen b.chunks < _ by omega)
  have h₃ : b.footer.indexOff % 256 ^ 8 = b.footer.indexOff :=
    Nat.mod_eq_of_lt (by omega)
  have h₄ : b.footer.indexLen % 256 ^ 4 = b.footer.indexLen := Nat.mod_eq_of_lt (by omega)
  have h₅ : b.footer.indexCount % 256 ^ 4 = b.footer.indexCount :=
    Nat.mod_eq_of_lt (Nat.mod_lt _ (by decide))
  have h₆ : b.footer.smallestSeq % 256 ^ 8 = b.footer.smallestSeq := Nat.mod_eq_of_lt hmin
  have h₇ : b.footer.largestSeq % 256 ^ 8 = b.footer.largestSeq := Nat.mod_eq_of_lt hmax
  rw [h₁, h₂, h₃, h₄, h₅, h₆, h₇]
  rfl

/-- The largest sequence number is read back whatever the length of the index. -/
theorem largestSeq_of_read {m : SSTableMeta} (h : SSTableMeta.read b.bytes = .ok m) :
    m.footer.largestSeq = maxSeqOf 0 b.entries := by
  obtain ⟨f, hf, hl, _, _⟩ := b.parseAt_footer
  rw [SSTableMeta.read] at h
  simp only [bind, Except.bind, hf] at h
  split_ifs at h
  split at h
  · cases h
  split at h
  · cases h
  split at h
  · cases h
  split at h
  · cases h
  · cases h
    exact hl

theorem parseAt_bloom : parseAt parseBloom b.bytes b.footer.bloomOff = .ok b.bloom := by
  have hbloom : b.bloom.bytes.length < 2 ^ 32 := by
    have hl := b.bloom_fits
    rwa [← length_bloomOf] at hl
  have hbytes : b.bytes = blocksBytes b.chunks ++ ((be 4 b.bloom.bytes.length ++ b.bloom.bytes) ++
      (b.indexBytes ++ b.footer.bytes)) := by
    simp [bytes]
  rw [hbytes]
  exact parseAt_eq (decodes_parseBloom hbloom) (length_blocksBytes _)

theorem parseAt_firstKey :
    parseAt SSTableMeta.firstKeyParser b.bytes 0 = .ok b.tableMeta.firstKey := by
  obtain ⟨c, cs, hc⟩ := List.exists_cons_of_ne_nil b.nonempty
  have hmem : c ∈ b.chunks := by rw [hc]; exact List.mem_cons_self
  obtain ⟨e, es, he⟩ := List.exists_cons_of_ne_nil (b.ne_nil c hmem)
  have hfit : e.1.Fits := (b.fits c hmem e (by rw [he]; exact List.mem_cons_self)).1
  have hfirst : b.tableMeta.firstKey = e.1 := by simp [tableMeta, entries, hc, he]
  obtain ⟨rest, hbytes⟩ : ∃ rest, b.bytes = [] ++ ((be 4 (Crc32.hash (payload c)).toNat ++
      (be 2 ((c.map Entry.diskSize).sum) ++ keyBytes e.1)) ++ rest) := by
    refine ⟨valueBytes e.2 ++ (payload es ++ (blocksBytes cs ++ (be 4 b.bloom.bytes.length ++
      (b.bloom.bytes ++ (b.indexBytes ++ b.footer.bytes))))), ?_⟩
    have hp : payload c = keyBytes e.1 ++ (valueBytes e.2 ++ payload es) := by
      rw [he, payload_cons, entryBytes, List.append_assoc]
    have hb : blocksBytes b.chunks = blockBytes c ++ blocksBytes cs := by rw [hc]; rfl
    rw [bytes, hb, blockBytes]
    generalize Crc32.hash (payload c) = crc
    rw [hp, List.nil_append]
    repeat rw [List.append_assoc]
  rw [hbytes, hfirst]
  exact parseAt_eq ((decodes_beNat_mod DbError.eof 4 _).bind
    ((decodes_beNat_mod DbError.eof 2 _).bind (decodes_parseKey lossyStr_bytes hfit))) rfl

theorem parseAt_index (hfit : b.IndexFits) :
    parseAt (readIndex (b.footer.indexLen + 1) b.footer.indexLen) b.bytes b.footer.indexOff =
      .ok b.index := by
  have hn : 20 * b.index.length ≤ b.indexBytes.length := length_le_flatMap_bytes _
  have hc : b.index.length = b.chunks.length := length_indexFrom 0 _
  have hblocks := blocksLen_le b.short
  unfold IndexFits at hfit
  have hilen : b.footer.indexLen = (b.index.flatMap IndexedKey.bytes).length := by
    rw [footer, indexLen_eq]
    exact Nat.mod_eq_of_lt hfit
  have hbytes : b.bytes = (blocksBytes b.chunks ++ (be 4 b.bloom.bytes.length ++ b.bloom.bytes)) ++
      (b.index.flatMap IndexedKey.bytes ++ b.footer.bytes) := by
    simp [bytes, indexBytes]
  rw [hbytes, hilen]
  refine parseAt_eq (decodes_readIndex (?_) (Nat.lt_succ_self _)) ?_
  · intro i hi
    obtain ⟨c, hcm, hk, hl, ho⟩ := mem_indexFrom hi
    obtain ⟨e, he, hek⟩ := lastKeyOf_mem (b.ne_nil c hcm)
    refine ⟨?_, by omega, hl ▸ b.short c hcm⟩
    rw [hk, ← hek]
    exact (b.fits c hcm e he).1
  · simp [footer, BloomFilter.diskSize]

/-- **Reopening** a table whose index length fits its field gives the metadata its writer
returned. -/
theorem read_eq (hfit : b.IndexFits) : SSTableMeta.read b.bytes = .ok b.tableMeta := by
  obtain ⟨f, hf, _, _, heq⟩ := b.parseAt_footer
  rw [heq hfit] at hf
  have hlong : ¬ b.bytes.length < footerLen := by
    rw [length_bytes, tableMeta]
    simp
  have hlast : b.index.getLast?.map IndexedKey.key = some b.tableMeta.lastKey := by
    obtain ⟨l, c, hc⟩ := (List.eq_nil_or_concat' b.chunks).resolve_left b.nonempty
    have hmem : c ∈ b.chunks := by rw [hc]; simp
    obtain ⟨l', x, hx⟩ := (List.eq_nil_or_concat' c).resolve_left (b.ne_nil c hmem)
    have hent : b.entries = l.flatten ++ (l' ++ [x]) := by simp [entries, hc, hx]
    have hidx : b.index = indexFrom 0 l ++ [⟨lastKeyOf c, 0 + blocksLen l, blockLen c⟩] := by
      rw [index, hc, indexFrom_concat]
    rw [hidx, tableMeta, hent]
    simp [lastKeyOf, hx]
  obtain ⟨last, hl, hkey⟩ := Option.map_eq_some_iff.mp hlast
  rw [SSTableMeta.read]
  simp only [bind, Except.bind, if_neg hlong, hf, b.parseAt_bloom, b.parseAt_firstKey,
    b.parseAt_index hfit, hl, hkey, pure, Except.pure]
  rw [b.length_bytes]
  rfl

end bytes

end Blocks

end LowDB
