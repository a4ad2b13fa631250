import LowDB.Sstable.Blocks

/-! # Reading tables

`sstable/src/meta.rs`, `cursor.rs` and `table.rs`.  A lookup checks the key bounds and the bloom
filter, finds the block by the last keys in the index, and scans the block.  On a table that
`finish` has written this is a lookup in the list of its entries (`get_eq`). -/

namespace LowDB

open Codec

/-! ### The block cursor -/

/-- `corrupt()`. -/
def corrupt : DbError := .invalidState "corrupt sstable block"

/-- `std::str::from_utf8(bytes).map_err(|_| corrupt())`. -/
def strictStr (bs : Bytes) : DbResult Str :=
  match Str.fromUtf8 bs with
  | some s => .ok s
  | none => .error corrupt

theorem strictStr_bytes (s : Str) : strictStr s.bytes = .ok s := by
  rw [strictStr, Str.fromUtf8_bytes]

/-- `Cursor::next_entry`, where the cursor is not at the end. -/
def nextEntry : Parser DbError Entry := parseEntry corrupt strictStr

/-- `Cursor::new`: the bytes from the cursor's position on. -/
def Cursor.new [Crc32] (buf : Bytes) : DbResult Bytes := do
  let (checksum, rest) ← beNat corrupt 4 buf
  let (len, rest) ← beNat corrupt 2 rest
  if buf.length < blockHeader + len then throw (.invalidState "invalid block bytes")
  let hash := Crc32.hash ((buf.drop blockHeader).take len)
  if hash.toNat ≠ checksum then throw (.invalidState "block corrupted")
  return rest

/-! ### Metadata -/

def parseFooter : Parser DbError Footer := do
  let entries ← beNat .eof 8
  let bloomOff ← beNat .eof 8
  let indexOff ← beNat .eof 8
  let indexLen ← beNat .eof 4
  let indexCount ← beNat .eof 4
  let smallestSeq ← beNat .eof 8
  let largestSeq ← beNat .eof 8
  let m ← beNat .eof 4
  if m ≠ magic then throw (.invalidState "bad sstable magic")
  else
    return {
      entries, bloomOff, indexOff, indexLen, indexCount, smallestSeq, largestSeq, magic := m }

def parseBloom : Parser DbError BloomFilter := do
  let len ← beNat .eof 4
  let bs ← take .eof len
  return ⟨bs⟩

/-- `Key::read`. -/
def readKey : Parser DbError Key := parseKey .eof lossyStr

def parseIndexedKey : Parser DbError IndexedKey := do
  let key ← readKey
  let blockOff ← beNat .eof 8
  let blockLen ← beNat .eof 2
  return { key, blockOff, blockLen }

/-- At most `n` rounds of the loop `while len > 0` of `SSTableMeta::index`. -/
def readIndex : ℕ → ℕ → Parser DbError (List IndexedKey)
  | 0, _ => throw .eof
  | n + 1, len =>
    if len = 0 then pure []
    else do
      let key ← parseIndexedKey
      if len < key.diskSize then throw (.invalidState "index length does not match entries")
      else do
        let index ← readIndex n (len - key.diskSize)
        return key :: index

/-- The value a parser reads at the offset `off` of a file. -/
def parseAt {α : Type} (p : Parser DbError α) (file : Bytes) (off : ℕ) : DbResult α :=
  (p (file.drop off)).map Prod.fst

namespace SSTableMeta

def firstKeyParser : Parser DbError Key := do
  let _ ← beNat .eof 4
  let _ ← beNat .eof 2
  readKey

/-- `SSTableMeta::read` on the bytes of the file. -/
def read (file : Bytes) : DbResult SSTableMeta := do
  let fileSize := file.length
  if fileSize < footerLen then throw (.invalidState "cannot read metadata: file empty")
  let footer ← parseAt parseFooter file (fileSize - footerLen)
  let bloom ← parseAt parseBloom file footer.bloomOff
  let firstKey ← parseAt firstKeyParser file 0
  let index ← parseAt (readIndex (footer.indexLen + 1) footer.indexLen) file footer.indexOff
  match index.getLast? with
  | none => throw (.invalidState "cannot load last table's key")
  | some last => return { fileSize, bloom, firstKey, lastKey := last.key, footer, index }

end SSTableMeta

/-! ### Lookups -/

structure SSTable where
  file : Bytes
  tableMeta : SSTableMeta
deriving DecidableEq

namespace SSTable

/-- `slice::partition_point`, on a list that `p` cuts in two. -/
def partitionPoint {α : Type} (p : α → Bool) (xs : List α) : ℕ := (xs.takeWhile p).length

/-- `read_block`. -/
def readBlock (t : SSTable) (h : IndexedKey) : DbResult Bytes :=
  if h.blockOff + h.blockLen ≤ t.file.length then .ok ((t.file.drop h.blockOff).take h.blockLen)
  else .error .eof

/-- At most `n` rounds of the loop over the entries of a block. -/
def scanBlock (user : Str) (snapshot : ℕ) : ℕ → Bytes → DbResult Lookup
  | 0, _ => .error corrupt
  | n + 1, bs =>
    if bs.isEmpty then .ok .absent
    else do
      let (entry, rest) ← nextEntry bs
      if entry.1.before user snapshot then scanBlock user snapshot n rest
      else return if entry.1.user = user then .ofValue entry.2 else .absent

/-- `SSTable::get`. -/
def get [Crc32] (t : SSTable) (user : Str) (snapshot : ℕ) : DbResult Lookup :=
  if user < t.tableMeta.firstKey.user ∨ t.tableMeta.lastKey.user < user then .ok .absent
  else if ¬ t.tableMeta.bloom.mayContain user then .ok .absent
  else
    let i := partitionPoint (fun h => h.key.before user snapshot) t.tableMeta.index
    match t.tableMeta.index[i]? with
    | none => .ok .absent
    | some handle => do
      let block ← t.readBlock handle
      let rest ← Cursor.new block
      scanBlock user snapshot (rest.length + 1) rest

end SSTable

/-! ### A lookup in a list of entries, part by part -/

section lookupIn
variable {es es' : List Entry} {u : Str} {s : ℕ}

theorem lookupIn_of_ne (h : ∀ e ∈ es, e.1.user ≠ u) : lookupIn es u s = .absent := by
  unfold lookupIn
  cases hf : es.find? fun e => ¬ e.1.before u s with
  | none => rfl
  | some e => exact if_neg (h e (List.mem_of_find?_eq_some hf))

/-- Entries before the bound are passed over. -/
theorem lookupIn_append_of_before (h : ∀ e ∈ es, e.1.before u s) :
    lookupIn (es ++ es') u s = lookupIn es' u s := by
  have hf : es.find? (fun e => ¬ e.1.before u s) = none :=
    List.find?_eq_none.mpr fun e he => by simpa using h e he
  rw [lookupIn, List.find?_append, hf, Option.none_or]
  rfl

/-- An entry that is not before the bound stops the search. -/
theorem lookupIn_append_of_not_before {e : Entry} (he : e ∈ es) (h : ¬ e.1.before u s) :
    lookupIn (es ++ es') u s = lookupIn es u s := by
  obtain ⟨x, hx⟩ : ∃ x, es.find? (fun e => ¬ e.1.before u s) = some x :=
    Option.isSome_iff_exists.mp (List.find?_isSome.mpr ⟨e, he, by simpa using h⟩)
  rw [lookupIn, lookupIn, List.find?_append, hx, Option.some_or]

theorem lookupIn_map_stored_of_before (h : ∀ e ∈ es, e.1.before u s) :
    lookupIn ((es ++ es').map Entry.stored) u s = lookupIn (es'.map Entry.stored) u s := by
  rw [List.map_append]
  apply lookupIn_append_of_before
  intro e he
  obtain ⟨x, hx, rfl⟩ := List.mem_map.mp he
  exact h x hx

theorem lookupIn_map_stored_of_not_before {e : Entry} (he : e ∈ es) (h : ¬ e.1.before u s) :
    lookupIn ((es ++ es').map Entry.stored) u s = lookupIn (es.map Entry.stored) u s := by
  rw [List.map_append]
  exact lookupIn_append_of_not_before (List.mem_map_of_mem he) h

/-- A lookup answers with the newest version of `u` written by `s`, when there is one. -/
theorem lookupIn_newest (h : es.Pairwise fun a b => a.1 ≤ b.1) (u : Str) (s : ℕ) :
    (∀ e ∈ es, e.1.user = u → s < e.1.seq.toNat) ∧ lookupIn es u s = .absent ∨
      ∃ x ∈ es, x.1.user = u ∧ x.1.seq.toNat ≤ s ∧
        (∀ e ∈ es, e.1.user = u → e.1.seq.toNat ≤ s → e.1.seq.toNat ≤ x.1.seq.toNat) ∧
        lookupIn es u s = .ofValue x.2 := by
  rcases entryAt_newest h u s with ⟨hnone, ha⟩ | ⟨x, hx, hu, hs, hmax, ha⟩
  · exact .inl ⟨hnone, by rw [lookupIn_eq, ha]; rfl⟩
  · exact .inr ⟨x, hx, hu, hs, hmax, by rw [lookupIn_eq, ha]; rfl⟩

end lookupIn

/-! ### Lookups in a table that was written -/

theorem payload_cons (e : Entry) (es : List Entry) :
    payload (e :: es) = entryBytes e ++ payload es := rfl

variable {u : Str} {s : ℕ}

/-- Scanning a block is a lookup in its entries. -/
theorem scanBlock_payload {es : List Entry} (hfit : ∀ e ∈ es, e.Fits) {n : ℕ}
    (hn : (payload es).length < n) :
    SSTable.scanBlock u s n (payload es) = .ok (lookupIn (es.map Entry.stored) u s) := by
  induction es generalizing n with
  | nil =>
      obtain ⟨n, rfl⟩ : ∃ k, n = k + 1 := ⟨n - 1, by omega⟩
      rfl
  | cons e es ih =>
      obtain ⟨n, rfl⟩ : ∃ k, n = k + 1 := ⟨n - 1, by omega⟩
      have hd : nextEntry (payload (e :: es)) = .ok (e.stored, payload es) :=
        decodes_parseEntry strictStr_bytes (hfit e List.mem_cons_self) (payload es)
      have hpos := diskSize_entry_pos e
      have hlen : (payload (e :: es)).length = e.diskSize + (payload es).length := by
        rw [payload_cons, List.length_append, length_entryBytes]
      have hne : (payload (e :: es)).isEmpty = false := by
        rw [List.isEmpty_eq_false_iff, ← List.length_pos_iff]
        omega
      rw [SSTable.scanBlock, hne, if_neg Bool.false_ne_true, hd]
      simp only [bind, Except.bind]
      by_cases hb : e.1.before u s
      · have hb' : e.stored.1.before u s := hb
        rw [if_pos hb', ih (fun x hx => hfit x (List.mem_cons_of_mem e hx)) (by omega)]
        have he : ∀ x ∈ [e], x.1.before u s := by simpa using hb
        exact congrArg Except.ok (lookupIn_map_stored_of_before he).symm
      · have hb' : ¬ e.stored.1.before u s := hb
        rw [if_neg hb', lookupIn, List.map_cons, List.find?_cons_of_pos (by simpa using hb')]
        rfl

theorem getElem?_cons_takeWhile {α : Type} (p : α → Bool) (a : α) (as : List α) (h : p a) :
    (a :: as)[SSTable.partitionPoint p (a :: as)]? = as[SSTable.partitionPoint p as]? := by
  simp [SSTable.partitionPoint, List.takeWhile_cons_of_pos h]

theorem getElem?_cons_takeWhile_neg {α : Type} (p : α → Bool) (a : α) (as : List α) (h : ¬ p a) :
    (a :: as)[SSTable.partitionPoint p (a :: as)]? = some a := by
  simp [SSTable.partitionPoint, List.takeWhile_cons_of_neg h]

theorem lastKeyOf_mem {c : List Entry} (h : c ≠ []) : ∃ e ∈ c, e.1 = lastKeyOf c := by
  obtain ⟨l, x, rfl⟩ := (List.eq_nil_or_concat' c).resolve_left h
  exact ⟨x, by simp, by simp [lastKeyOf]⟩

/-- The entries of a block before whose last key the bound lies are all before the bound. -/
theorem before_of_lastKeyOf {c : List Entry} (hs : c.Pairwise fun a b => a.1 ≤ b.1)
    (h : (lastKeyOf c).before u s) : ∀ e ∈ c, e.1.before u s := by
  rcases List.eq_nil_or_concat' c with rfl | ⟨l, x, rfl⟩
  · exact fun e he => absurd he List.not_mem_nil
  · have hx : x.1.before u s := by simpa [lastKeyOf] using h
    intro e he
    rcases List.mem_append.mp he with he | he
    · exact Key.before_of_le ((List.pairwise_append.mp hs).2.2 e he x (by simp)) hx
    · rw [List.mem_singleton.mp he]
      exact hx

/-- The index finds the block that decides the lookup, or the bound lies behind all entries. -/
theorem index_search {chunks : List (List Entry)} (off : ℕ) (hne : ∀ c ∈ chunks, c ≠ [])
    (hs : chunks.flatten.Pairwise fun a b => a.1 ≤ b.1) :
    ((indexFrom off chunks)[SSTable.partitionPoint (fun h => h.key.before u s)
        (indexFrom off chunks)]? = none ∧
      lookupIn (chunks.flatten.map Entry.stored) u s = .absent) ∨
    ∃ pre c post, chunks = pre ++ c :: post ∧
      (indexFrom off chunks)[SSTable.partitionPoint (fun h => h.key.before u s)
        (indexFrom off chunks)]? = some ⟨lastKeyOf c, off + blocksLen pre, blockLen c⟩ ∧
      lookupIn (chunks.flatten.map Entry.stored) u s = lookupIn (c.map Entry.stored) u s := by
  induction chunks generalizing off with
  | nil => exact .inl ⟨rfl, rfl⟩
  | cons c cs ih =>
      rw [List.flatten_cons] at hs ⊢
      obtain ⟨hc, hcs, _⟩ := List.pairwise_append.mp hs
      rw [indexFrom]
      by_cases hb : (lastKeyOf c).before u s
      · rw [getElem?_cons_takeWhile _ _ _ (by simpa using hb),
          lookupIn_map_stored_of_before (before_of_lastKeyOf hc hb)]
        rcases ih (off + blockLen c) (fun d hd => hne d (List.mem_cons_of_mem c hd)) hcs with
          h | ⟨pre, d, post, rfl, hi, hl⟩
        · exact .inl h
        · refine .inr ⟨c :: pre, d, post, rfl, ?_, hl⟩
          rw [hi, blocksLen, blocksLen, List.map_cons, List.sum_cons, Nat.add_assoc]
      · obtain ⟨e, he, hk⟩ := lastKeyOf_mem (hne c List.mem_cons_self)
        refine .inr ⟨[], c, cs, rfl, ?_, lookupIn_map_stored_of_not_before he (hk ▸ hb)⟩
        exact getElem?_cons_takeWhile_neg _ _ _ (by simpa using hb)

namespace Blocks

variable (b : Blocks)

theorem entries_ne_nil : b.entries ≠ [] := by
  obtain ⟨c, hc⟩ := List.exists_mem_of_ne_nil _ b.nonempty
  obtain ⟨e, he⟩ := List.exists_mem_of_ne_nil _ (b.ne_nil c hc)
  exact List.ne_nil_of_mem (List.mem_flatten_of_mem hc he)

/-- A table without the user key answers absent. -/
theorem lookupIn_absent (h : ∀ e ∈ b.entries, e.1.user ≠ u) :
    lookupIn (b.entries.map Entry.stored) u s = .absent := by
  apply lookupIn_of_ne
  intro e he
  obtain ⟨x, hx, rfl⟩ := List.mem_map.mp he
  exact h x hx

theorem mayContain_of_mem {e : Entry} (he : e ∈ b.entries) : b.bloom.mayContain e.1.user := by
  obtain ⟨x, hx, hu⟩ := exists_mem_newest he
  apply BloomFilter.mayContain_build bitsPerKey
  rw [← hu]
  exact List.mem_map_of_mem hx

end Blocks

section written
variable [Crc32]

theorem parse_blockHeader (es : List Entry) (h : blockLen es < 2 ^ 16) :
    Cursor.new (blockBytes es) = .ok (payload es) := by
  have hlen : (es.map Entry.diskSize).sum < 2 ^ 16 := by
    unfold blockLen at h
    omega
  have h4 := decodes_beNat corrupt (w := 4) (Crc32.hash (payload es)).toNat_lt
    (be 2 ((es.map Entry.diskSize).sum) ++ payload es)
  have h2 := decodes_u16 corrupt hlen (payload es)
  have hdrop : (blockBytes es).drop blockHeader = payload es := by
    have hb : blockBytes es = (be 4 (Crc32.hash (payload es)).toNat ++
        be 2 ((es.map Entry.diskSize).sum)) ++ payload es := (List.append_assoc ..).symm
    rw [hb]
    exact List.drop_left' (by simp [blockHeader])
  have hlong : ¬ (blockBytes es).length < blockHeader + (es.map Entry.diskSize).sum := by
    rw [length_blockBytes, blockLen]
    omega
  have htake : (payload es).take (es.map Entry.diskSize).sum = payload es :=
    List.take_of_length_le (length_payload es).le
  rw [Cursor.new]
  change (beNat corrupt 4 (be 4 _ ++ _) >>= _) = _
  rw [h4]
  simp only [bind, Except.bind, h2]
  rw [if_neg hlong, hdrop, htake]
  simp [pure, Except.pure]

namespace Blocks

variable (b : Blocks)

/-- The handle on the table that its writer returns. -/
def table : SSTable := ⟨b.bytes, b.tableMeta⟩

theorem readBlock_eq {pre post : List (List Entry)} {c : List Entry}
    (hc : b.chunks = pre ++ c :: post) :
    b.table.readBlock ⟨lastKeyOf c, blocksLen pre, blockLen c⟩ = .ok (blockBytes c) := by
  obtain ⟨rest, hr⟩ : ∃ rest, b.bytes = blocksBytes pre ++ (blockBytes c ++ rest) := by
    refine ⟨blocksBytes post ++ (be 4 b.bloom.bytes.length ++
      (b.bloom.bytes ++ (b.indexBytes ++ b.footer.bytes))), ?_⟩
    simp [bytes, hc, blocksBytes]
  have hlen : blocksLen pre + blockLen c ≤ b.bytes.length := by
    rw [hr, List.length_append, List.length_append, length_blocksBytes, length_blockBytes]
    omega
  rw [SSTable.readBlock]
  change (if blocksLen pre + blockLen c ≤ b.bytes.length then _ else _) = _
  rw [if_pos hlen]
  change Except.ok ((b.bytes.drop (blocksLen pre)).take (blockLen c)) = _
  rw [hr, List.drop_left' (length_blocksBytes pre), List.take_left' (length_blockBytes c)]

/-- **Point lookup**: a table that was written answers like the list of its entries. -/
theorem get_eq (hs : b.entries.Pairwise fun a b => a.1 ≤ b.1) (u : Str) (s : ℕ) :
    b.table.get u s = .ok (lookupIn (b.entries.map Entry.stored) u s) := by
  have hfirst : ∀ e ∈ b.entries, b.tableMeta.firstKey ≤ e.1 := by
    intro e he
    obtain ⟨x, xs, hx⟩ := List.exists_cons_of_ne_nil b.entries_ne_nil
    have hk : b.tableMeta.firstKey = x.1 := by simp [tableMeta, hx]
    rw [hk]
    rw [hx] at hs he
    rcases List.mem_cons.mp he with rfl | he
    · exact le_rfl
    · exact (List.pairwise_cons.mp hs).1 e he
  have hlast : ∀ e ∈ b.entries, e.1 ≤ b.tableMeta.lastKey := by
    intro e he
    obtain ⟨l, x, hx⟩ := (List.eq_nil_or_concat' b.entries).resolve_left b.entries_ne_nil
    have hk : b.tableMeta.lastKey = x.1 := by simp [tableMeta, lastKeyOf, hx]
    rw [hk]
    rw [hx] at hs he
    rcases List.mem_append.mp he with he | he
    · exact (List.pairwise_append.mp hs).2.2 e he x (by simp)
    · rw [List.mem_singleton.mp he]
  have huser : ∀ {k k' : Key}, k ≤ k' → k.user ≤ k'.user := by
    intro k k' h
    rcases h.lt_or_eq with h | rfl
    · rcases Key.lt_iff.mp h with h | ⟨h, _⟩
      · exact h.le
      · exact h.le
    · exact le_rfl
  rw [SSTable.get]
  by_cases hr : u < b.tableMeta.firstKey.user ∨ b.tableMeta.lastKey.user < u
  · have hne : ∀ e ∈ b.entries, e.1.user ≠ u := by
      rintro e he rfl
      rcases hr with hr | hr
      · exact absurd (huser (hfirst e he)) (not_le.mpr hr)
      · exact absurd (huser (hlast e he)) (not_le.mpr hr)
    rw [b.lookupIn_absent hne]
    exact if_pos hr
  rw [if_neg (show ¬ (u < b.table.tableMeta.firstKey.user ∨ b.table.tableMeta.lastKey.user < u)
    from hr)]
  by_cases hbloom : b.bloom.mayContain u = true
  · rw [if_neg (show ¬ ¬ b.table.tableMeta.bloom.mayContain u from fun h => h hbloom)]
    rcases index_search (u := u) (s := s) 0 b.ne_nil hs with ⟨hi, hl⟩ | ⟨pre, c, post, hc, hi, hl⟩
    · dsimp only
      rw [show b.table.tableMeta.index = indexFrom 0 b.chunks from rfl, hi, entries, hl]
    · dsimp only
      rw [show b.table.tableMeta.index = indexFrom 0 b.chunks from rfl, hi, entries, hl,
        Nat.zero_add]
      have hmem : c ∈ b.chunks := by rw [hc]; simp
      simp only [b.readBlock_eq hc, bind, Except.bind, parse_blockHeader c (b.short c hmem)]
      exact scanBlock_payload (b.fits c hmem) (Nat.lt_succ_self _)
  · have hne : ∀ e ∈ b.entries, e.1.user ≠ u := by
      rintro e he rfl
      exact hbloom (b.mayContain_of_mem he)
    rw [if_pos (show ¬ b.table.tableMeta.bloom.mayContain u from hbloom), b.lookupIn_absent hne]

end Blocks

/-- **Point lookup**: a table that was written answers with the first entry that is not before the
bound, which is the newest version of `u` with a sequence number of at most `s`. -/
theorem written_get {es : List Entry} {file : Bytes} {m : SSTableMeta} (h : writeTable es = .ok (some (file, m)))
    (u : Str) (s : ℕ) :
    (SSTable.mk file m).get u s = .ok (lookupIn (es.map Entry.stored) u s) ∧
      ((∀ e ∈ es, e.1.user = u → s < e.1.seq.toNat) ∧
          lookupIn (es.map Entry.stored) u s = .absent ∨
        ∃ x ∈ es, x.1.user = u ∧ x.1.seq.toNat ≤ s ∧
          (∀ e ∈ es, e.1.user = u → e.1.seq.toNat ≤ s → e.1.seq.toNat ≤ x.1.seq.toNat) ∧
          lookupIn (es.map Entry.stored) u s = .ofValue x.2.stored) := by
  obtain ⟨hs, b, rfl, rfl, rfl⟩ := writeTable_some h
  refine ⟨b.get_eq hs u s, ?_⟩
  have hst : (b.entries.map Entry.stored).Pairwise fun a b => a.1 ≤ b.1 :=
    List.pairwise_map.mpr hs
  rcases lookupIn_newest hst u s with ⟨hnone, ha⟩ | ⟨x, hx, hu, hle, hmax, ha⟩
  · exact .inl ⟨fun e he => hnone e.stored (List.mem_map_of_mem he), ha⟩
  · obtain ⟨x, hxm, rfl⟩ := List.mem_map.mp hx
    exact .inr ⟨x, hxm, hu, hle, fun e he => hmax e.stored (List.mem_map_of_mem he), ha⟩

end written

theorem written_get_twoVersions :
    ∃ file m, @SSTable.get crc32 ⟨file, m⟩ (.ascii [0x6b]) 2 = .ok .deleted ∧
      @SSTable.get crc32 ⟨file, m⟩ (.ascii [0x6b]) 1 = .ok (.found (.ascii [0x76])) := by
  obtain ⟨file, m, h, _⟩ := writeTable_twoVersions
  exact ⟨file, m, (@written_get crc32 _ _ _ h _ 2).1, (@written_get crc32 _ _ _ h _ 1).1⟩

end LowDB
