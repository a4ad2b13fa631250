import LowDB.Lib.Crc
import LowDB.Sstable.Scan

/-! # Damaged blocks

What the checksums of a table catch.  The file of a table is damaged after it was written: in a block
either the checksum field becomes any other, or up to four bytes of the payload that stand next to
each other do (`Spoiled`).  CRC-32 sees every such change, so a lookup that comes to a spoiled block fails
(`get_spoiled`) and a scan returns the entries in front of the first one and then fails
(`scan_spoiled`); neither ever returns a wrong entry.

A table that is opened again takes its first key from the first block without looking at the checksum.
Damage there goes unnoticed by the lookups of all smaller keys: they find nothing
(`reopened_spoiled`). -/

namespace LowDB

open Codec

/-! ### CRC-32 -/

def crcPoly : ℕ := 0xEDB88320

theorem hash_crc32 (bs : Bytes) :
    crc32.hash bs = UInt32.ofNat (Crc.run crcPoly 0xFFFFFFFF bs ^^^ 0xFFFFFFFF) := rfl

/-- CRC-32 sees up to four bytes next to each other that change. -/
theorem hash_ne_of_burst {pre bs bs' post : Bytes} (hlen : bs.length = bs'.length)
    (hshort : bs.length ≤ 4) (hne : bs ≠ bs') :
    crc32.hash (pre ++ (bs ++ post)) ≠ crc32.hash (pre ++ (bs' ++ post)) := by
  intro h
  have hp : 2 ^ 31 ≤ crcPoly := by decide
  have hp' : crcPoly < 2 ^ (31 + 1) := by decide
  have hlt : ∀ w, Crc.run crcPoly 0xFFFFFFFF w ^^^ 0xFFFFFFFF < 2 ^ 32 := fun w =>
    Nat.xor_lt_two_pow (Crc.run_lt hp' (by decide) (by decide) w) (by decide)
  rw [hash_crc32, hash_crc32, ← UInt32.toNat_inj, UInt32.toNat_ofNat_of_lt' (hlt _),
    UInt32.toNat_ofNat_of_lt' (hlt _)] at h
  exact Crc.run_ne_of_burst hp hp' (by decide) (by decide) hlen (by omega) hne
    ((xor_left_involutive _).injective h)

/-! ### Spoiled blocks -/

/-- The bytes that the handle points to. -/
def IndexedKey.slice (x : IndexedKey) (file : Bytes) : Bytes := (file.drop x.blockOff).take x.blockLen

/-- The block with another checksum, or with up to four neighbouring bytes of its payload changed. -/
def Spoiled (block block' : Bytes) : Prop :=
  (∃ sum sum' rest, block = sum ++ rest ∧ block' = sum' ++ rest ∧ sum.length = 4 ∧
      sum'.length = 4 ∧ sum ≠ sum') ∨
    ∃ header pre bs bs' post, block = header ++ (pre ++ (bs ++ post)) ∧
      block' = header ++ (pre ++ (bs' ++ post)) ∧ header.length = blockHeader ∧
      bs.length = bs'.length ∧ bs.length ≤ 4 ∧ bs ≠ bs'

theorem Spoiled.ne {block block' : Bytes} (h : Spoiled block block') : block' ≠ block := by
  rintro rfl
  rcases h with ⟨sum, sum', rest, h, h', -, -, hne⟩ | ⟨header, pre, bs, bs', post, h, h', -, -, -, hne⟩
  · exact hne (List.append_cancel_right (h.symm.trans h'))
  · have hrest := List.append_cancel_left (List.append_cancel_left (h.symm.trans h'))
    exact hne (List.append_cancel_right hrest)

/-- A block in which up to four bytes behind the header, from the offset `n` on, are others. -/
theorem spoiled_of_bytes {block block' : Bytes} {n k : ℕ} (hn : blockHeader ≤ n) (hk : k ≤ 4)
    (hlen : block'.length = block.length) (hlong : blockHeader ≤ block.length)
    (htake : block'.take n = block.take n)
    (hdrop : block'.drop (n + k) = block.drop (n + k)) (hne : block' ≠ block) :
    Spoiled block block' := by
  have hparts : ∀ x : Bytes, x.take blockHeader ++ ((x.take n).drop blockHeader ++
      ((x.drop n).take k ++ x.drop (n + k))) = x := by
    intro x
    have hhead : (x.take n).take blockHeader = x.take blockHeader := by
      rw [List.take_take, min_eq_left hn]
    rw [← List.drop_drop, List.take_append_drop, ← List.append_assoc, ← hhead,
      List.take_append_drop, List.take_append_drop]
  have hhead : block'.take blockHeader = block.take blockHeader := by
    rw [← min_eq_left hn, ← List.take_take, htake, List.take_take]
  have hparts' := hparts block'
  rw [hhead, htake, hdrop] at hparts'
  refine .inr ⟨_, _, _, _, _, (hparts block).symm, hparts'.symm, by simp [hlong], by simp [hlen],
    by simp [hk], fun hbs => hne ?_⟩
  rw [← hparts', ← hbs, hparts]

/-- A parser does not see what stands in front of its offset. -/
theorem parseAt_of_drop {α : Type} {file file' : Bytes} {n off : ℕ} (p : Parser DbError α)
    (h : file'.drop n = file.drop n) (hoff : n ≤ off) : parseAt p file' off = parseAt p file off := by
  have hdrop := congrArg (List.drop (off - n)) h
  rw [List.drop_drop, List.drop_drop, Nat.add_sub_cancel' hoff] at hdrop
  rw [parseAt, parseAt, hdrop]

section code
variable [Crc32] {es : List Entry} {block file file' : Bytes} {m : SSTableMeta}

/-- A block of the length of `es` whose checksum is not that of its payload. -/
def Mismatched (es : List Entry) (block : Bytes) : Prop :=
  ∃ sum p, block = sum ++ (be 2 (es.map Entry.diskSize).sum ++ p) ∧ sum.length = 4 ∧
    p.length = (es.map Entry.diskSize).sum ∧ (Crc32.hash p).toNat ≠ nat sum

theorem mismatched_of_spoiled (hcrc : ∀ bs, Crc32.hash bs = crc32.hash bs)
    (h : Spoiled (blockBytes es) block) : Mismatched es block := by
  rcases h with ⟨sum, sum', rest, hb, rfl, hs, hs', hne⟩ |
    ⟨header, pre, bs, bs', post, hb, rfl, hh, hlen, hshort, hne⟩
  · obtain ⟨rfl, rfl⟩ := List.append_inj hb (by rw [length_be, hs])
    refine ⟨sum', payload es, rfl, hs', length_payload es, fun h => hne ?_⟩
    rw [h, ← hs', be_nat]
  · rw [blockBytes, ← List.append_assoc] at hb
    obtain ⟨rfl, hp⟩ := List.append_inj hb (by simp [hh, blockHeader])
    refine ⟨be 4 (Crc32.hash (payload es)).toNat, pre ++ (bs' ++ post), by simp, length_be 4 _, ?_, ?_⟩
    · rw [← length_payload, hp]
      simp [hlen]
    · have hfits : (Crc32.hash (payload es)).toNat < 256 ^ 4 := (Crc32.hash (payload es)).toNat_lt
      rw [nat_be_mod, Nat.mod_eq_of_lt hfits, hp, hcrc, hcrc]
      exact fun h => hash_ne_of_burst hlen hshort hne (UInt32.toNat_inj.mp h).symm

theorem cursor_new_mismatched (hshort : blockLen es < 2 ^ 16) (h : Mismatched es block) :
    Cursor.new block = .error (.invalidState "block corrupted") := by
  obtain ⟨sum, p, rfl, hs, hp, hne⟩ := h
  have hlen : (es.map Entry.diskSize).sum < 2 ^ 16 := by
    unfold blockLen at hshort
    omega
  have h4 : beNat corrupt 4 (sum ++ (be 2 (es.map Entry.diskSize).sum ++ p)) =
      .ok (nat sum, be 2 (es.map Entry.diskSize).sum ++ p) := by
    have hd := decodes_beNat corrupt (w := 4) (n := nat sum) (hs ▸ nat_lt sum)
      (be 2 (es.map Entry.diskSize).sum ++ p)
    rwa [← hs, be_nat, hs] at hd
  have h2 := decodes_u16 corrupt hlen p
  have hdrop : (sum ++ (be 2 (es.map Entry.diskSize).sum ++ p)).drop blockHeader = p := by
    rw [← List.append_assoc]
    exact List.drop_left' (by simp [hs, blockHeader])
  have htake : p.take (es.map Entry.diskSize).sum = p := List.take_of_length_le hp.le
  have hlong : ¬ (sum ++ (be 2 (es.map Entry.diskSize).sum ++ p)).length <
      blockHeader + (es.map Entry.diskSize).sum := by
    simp [hs, hp, blockHeader]
    omega
  simp only [Cursor.new, bind, Except.bind, h4, h2, hdrop, htake]
  rw [if_neg hlong, if_pos hne]
  rfl

/-! ### Lookups -/

/-- The block that a lookup comes to, if it comes to one. -/
def SSTableMeta.handleFor (m : SSTableMeta) (user : Str) (snapshot : ℕ) : Option IndexedKey :=
  if user < m.firstKey.user ∨ m.lastKey.user < user then none
  else if ¬ m.bloom.mayContain user then none
  else m.index[SSTable.partitionPoint (fun h => h.key.before user snapshot) m.index]?

theorem get_of_handleFor_none {t : SSTable} {user : Str} {snapshot : ℕ}
    (h : t.tableMeta.handleFor user snapshot = none) : t.get user snapshot = .ok .absent := by
  unfold SSTableMeta.handleFor at h
  unfold SSTable.get
  split_ifs at h ⊢
  · rfl
  · dsimp only
    rw [h]
  · rfl

theorem get_of_handleFor {t : SSTable} {user : Str} {snapshot : ℕ} {x : IndexedKey}
    (h : t.tableMeta.handleFor user snapshot = some x) :
    t.get user snapshot = (t.readBlock x >>= fun block => Cursor.new block >>= fun rest =>
      SSTable.scanBlock user snapshot (rest.length + 1) rest) := by
  unfold SSTableMeta.handleFor at h
  unfold SSTable.get
  split_ifs at h ⊢
  dsimp only
  rw [h]

omit [Crc32] in
theorem mem_index_of_handleFor {user : Str} {snapshot : ℕ} {x : IndexedKey}
    (h : m.handleFor user snapshot = some x) : x ∈ m.index := by
  unfold SSTableMeta.handleFor at h
  split_ifs at h
  exact List.mem_of_getElem? h

omit [Crc32] in
/-- A handle points to the block at its place among the others. -/
theorem exists_block {off : ℕ} {chunks : List (List Entry)} {x : IndexedKey}
    (h : x ∈ indexFrom off chunks) : ∃ pre c post, chunks = pre ++ c :: post ∧
      x = ⟨lastKeyOf c, off + blocksLen pre, blockLen c⟩ := by
  induction chunks generalizing off with
  | nil => cases h
  | cons c chunks ih =>
      rcases List.mem_cons.mp h with rfl | h
      · exact ⟨[], c, chunks, rfl, rfl⟩
      · obtain ⟨pre, d, post, rfl, rfl⟩ := ih h
        refine ⟨c :: pre, d, post, rfl, ?_⟩
        rw [blocksLen, blocksLen, List.map_cons, List.sum_cons, Nat.add_assoc]

/-- What a handle of the index points to in the file of its table. -/
theorem Blocks.slice_eq (b : Blocks) {x : IndexedKey} (h : x ∈ b.tableMeta.index) :
    ∃ c ∈ b.chunks, x.slice b.bytes = blockBytes c ∧ x.blockOff + x.blockLen ≤ b.bytes.length := by
  obtain ⟨pre, c, post, hc, rfl⟩ := exists_block h
  have hread := b.readBlock_eq hc
  unfold SSTable.readBlock at hread
  split_ifs at hread with hle
  refine ⟨c, by simp [hc], ?_, by rwa [Nat.zero_add]⟩
  rw [IndexedKey.slice, Nat.zero_add]
  exact Except.ok.inj hread

/-- With the index of the table, whatever the bounds and the filter are. -/
theorem Blocks.get_of_spoiled (b : Blocks) {u : Str} {s : ℕ} (hcrc : ∀ bs, Crc32.hash bs = crc32.hash bs)
    (hm : m.index = b.index) (hlen : file'.length = b.bytes.length)
    (hs : ∀ x ∈ b.index, x.slice file' = x.slice b.bytes ∨ Spoiled (x.slice b.bytes) (x.slice file')) :
    (SSTable.mk file' m).get u s =
      if ∃ x, m.handleFor u s = some x ∧ x.slice file' ≠ x.slice b.bytes then
        .error (.invalidState "block corrupted")
      else (SSTable.mk b.bytes m).get u s := by
  cases hx : m.handleFor u s with
  | none => rw [if_neg (by simp), get_of_handleFor_none hx, get_of_handleFor_none hx]
  | some x =>
      have hmem : x ∈ b.index := hm ▸ mem_index_of_handleFor hx
      obtain ⟨c, hc, hblock, hle⟩ := b.slice_eq hmem
      have hread : ∀ f : Bytes, f.length = b.bytes.length →
          (SSTable.mk f m).readBlock x = .ok (x.slice f) := fun f hf => by
        rw [SSTable.readBlock, if_pos (hf ▸ hle)]
        rfl
      rw [get_of_handleFor hx, get_of_handleFor hx, hread file' hlen, hread b.bytes rfl]
      by_cases hsame : x.slice file' = x.slice b.bytes
      · rw [if_neg, hsame]
        rintro ⟨y, hy, hne⟩
        cases hy
        exact hne hsame
      · have hbad : Mismatched c (x.slice file') := by
          have hspoiled := (hs x hmem).resolve_left hsame
          rw [hblock] at hspoiled
          exact mismatched_of_spoiled hcrc hspoiled
        rw [if_pos ⟨x, rfl, hsame⟩]
        simp only [bind, Except.bind, cursor_new_mismatched (b.short c hc) hbad]

/-- **Lookups in a damaged table**: where some blocks are spoiled, a lookup that comes to one of them fails
and every other one answers as before. -/
theorem get_spoiled (hcrc : ∀ bs, Crc32.hash bs = crc32.hash bs)
    (h : writeTable es = .ok (some (file, m))) (hlen : file'.length = file.length)
    (hs : ∀ x ∈ m.index, x.slice file' = x.slice file ∨ Spoiled (x.slice file) (x.slice file'))
    (u : Str) (s : ℕ) :
    (SSTable.mk file' m).get u s =
      if ∃ x, m.handleFor u s = some x ∧ x.slice file' ≠ x.slice file then
        .error (.invalidState "block corrupted")
      else (SSTable.mk file m).get u s := by
  obtain ⟨-, b, -, rfl, rfl⟩ := writeTable_some h
  exact b.get_of_spoiled hcrc rfl hlen hs

end code

theorem writeTable_of_join [Crc32] {es : List Entry} {r : Bytes × SSTableMeta}
    (h : (writeTable es).toOption.join = some r) : writeTable es = .ok (some r) := by
  cases hw : writeTable es with
  | error e =>
      rw [hw] at h
      cases h
  | ok o =>
      rw [hw] at h
      exact congrArg Except.ok (Option.some.inj (Option.join_eq_some_iff.mp h))

/-- With a byte of its first user key damaged. -/
def damaged (file : Bytes) : Bytes := file.set 8 0x7a

/-- The damage leaves all but the block of the table as it is and makes the first key greater than `u`. -/
def damages (es : List Entry) (u : Str) : Option Bool :=
  (@writeTable crc32 es).toOption.join.map fun r =>
    decide ((r.1.length < 2 ^ 64 ∧
        (damaged r.1).drop r.2.footer.bloomOff = r.1.drop r.2.footer.bloomOff) ∧
      (∀ x ∈ r.2.index, (x.slice (damaged r.1)).length = (x.slice r.1).length ∧
        blockHeader ≤ (x.slice r.1).length ∧
        (x.slice (damaged r.1)).take 8 = (x.slice r.1).take 8 ∧
        (x.slice (damaged r.1)).drop (8 + 1) = (x.slice r.1).drop (8 + 1) ∧
        x.slice (damaged r.1) ≠ x.slice r.1) ∧
      (r.2.handleFor u 2).isSome ∧
      (r.2.index.flatMap IndexedKey.bytes).length < 2 ^ 32 ∧
      ((SSTableMeta.read (damaged r.1)).toOption.any fun m => decide (u < m.firstKey.user)))

theorem exists_of_damages {es : List Entry} {u : Str} (h : damages es u = some true) : ∃ file m m',
    @writeTable crc32 es = .ok (some (file, m)) ∧
    (file.length < 2 ^ 64 ∧ (damaged file).drop m.footer.bloomOff = file.drop m.footer.bloomOff) ∧
    (∀ x ∈ m.index, Spoiled (x.slice file) (x.slice (damaged file))) ∧
    (∃ x ∈ m.index, m.handleFor u 2 = some x) ∧
    (m.index.flatMap IndexedKey.bytes).length < 2 ^ 32 ∧
    SSTableMeta.read (damaged file) = .ok m' ∧ u < m'.firstKey.user := by
  obtain ⟨r, hw, h⟩ := Option.map_eq_some_iff.mp h
  obtain ⟨hbase, hs, hx, hidx, hm⟩ := of_decide_eq_true h
  obtain ⟨x, hx⟩ := Option.isSome_iff_exists.mp hx
  obtain ⟨m', hm', hlt⟩ : ∃ m', SSTableMeta.read (damaged r.1) = .ok m' ∧ u < m'.firstKey.user := by
    cases hr : SSTableMeta.read (damaged r.1) with
    | error e =>
        rw [hr] at hm
        cases hm
    | ok m' =>
        rw [hr] at hm
        exact ⟨m', rfl, of_decide_eq_true hm⟩
  refine ⟨r.1, r.2, m', @writeTable_of_join crc32 _ _ hw, hbase, fun y hy => ?_,
    ⟨x, mem_index_of_handleFor hx, hx⟩, hidx, hm', hlt⟩
  obtain ⟨h1, h2, h3, h4, h5⟩ := hs y hy
  exact spoiled_of_bytes (by decide) (by decide : 1 ≤ 4) h1 h2 h3 h4 h5

theorem damages_twoVersions : damages twoVersions (.ascii [0x6b]) = some true := by decide +kernel

theorem get_spoiled_twoVersions : ∃ file m, @writeTable crc32 twoVersions = .ok (some (file, m)) ∧
    @SSTable.get crc32 ⟨damaged file, m⟩ (.ascii [0x6b]) 2 =
      .error (.invalidState "block corrupted") := by
  obtain ⟨file, m, -, h, -, hs, ⟨x, hx, hfor⟩, -⟩ := exists_of_damages damages_twoVersions
  refine ⟨file, m, h, ?_⟩
  rw [@get_spoiled crc32 twoVersions file (damaged file) m (fun _ => rfl) h List.length_set
    (fun y hy => .inr (hs y hy)), if_pos ⟨x, hfor, (hs x hx).ne⟩]

/-! ### Reopening -/

section reopened
variable [Crc32] {es : List Entry} {file file' : Bytes} {m : SSTableMeta} {u : Str} {s : ℕ}

/-- With any first key at most `u` the index leads to the same answer. -/
theorem Blocks.get_firstKey (b : Blocks) (hs : b.entries.Pairwise fun a b => a.1 ≤ b.1) {k : Key}
    (hk : ¬ u < k.user) :
    (SSTable.mk b.bytes { b.tableMeta with firstKey := k }).get u s = b.table.get u s := by
  cases hx : SSTableMeta.handleFor { b.tableMeta with firstKey := k } u s with
  | none =>
      have hnone : b.table.tableMeta.handleFor u s = none := by
        unfold SSTableMeta.handleFor at hx ⊢
        by_cases h : u < b.tableMeta.firstKey.user ∨ b.tableMeta.lastKey.user < u
        · exact if_pos h
        · have h' : ¬ (u < k.user ∨ b.tableMeta.lastKey.user < u) := not_or.mpr ⟨hk, (not_or.mp h).2⟩
          rw [if_neg h'] at hx
          exact (if_neg h).trans hx
      rw [get_of_handleFor_none hx, get_of_handleFor_none hnone]
  | some x =>
      rw [get_of_handleFor hx, b.get_eq hs]
      have hidx : b.index[SSTable.partitionPoint (fun h => h.key.before u s) b.index]? = some x := by
        unfold SSTableMeta.handleFor at hx
        split_ifs at hx
        exact hx
      rcases index_search (u := u) (s := s) 0 b.ne_nil hs with ⟨hi, -⟩ | ⟨pre, c, post, hc, hi, hl⟩
      · cases hi.symm.trans hidx
      · have hmem : c ∈ b.chunks := by rw [hc]; simp
        obtain rfl := Option.some.inj (hi.symm.trans hidx)
        have hread : (SSTable.mk b.bytes { b.tableMeta with firstKey := k }).readBlock
            ⟨lastKeyOf c, 0 + blocksLen pre, blockLen c⟩ = .ok (blockBytes c) := by
          rw [Nat.zero_add]
          exact b.readBlock_eq hc
        rw [hread, Blocks.entries, hl]
        simp only [bind, Except.bind, parse_blockHeader c (b.short c hmem)]
        exact scanBlock_payload (b.fits c hmem) (Nat.lt_succ_self _)

/-- What is read of a file of which only blocks are damaged: the first key as it stands in the first block,
the rest as it was written. -/
theorem Blocks.read_of_drop (b : Blocks) (hfit : b.IndexFits) (hlen : file'.length = b.bytes.length)
    (hrest : file'.drop b.footer.bloomOff = b.bytes.drop b.footer.bloomOff) :
    SSTableMeta.read file' = (parseAt SSTableMeta.firstKeyParser file' 0).map fun k =>
      { b.tableMeta with firstKey := k } := by
  have hread := b.read_eq hfit
  obtain ⟨f, hf, -, -, heq⟩ := b.parseAt_footer
  rw [heq hfit] at hf
  have hlong : b.footer.bloomOff + footerLen ≤ b.bytes.length := by
    have hl : b.bytes.length = blocksLen b.chunks + b.bloom.diskSize + b.indexBytes.length + footerLen :=
      b.length_bytes
    have ho : b.footer.bloomOff = blocksLen b.chunks := rfl
    omega
  have hf' : parseAt parseFooter file' (b.bytes.length - footerLen) = .ok b.footer := by
    rw [parseAt_of_drop _ hrest (by omega), hf]
  have hb' : parseAt parseBloom file' b.footer.bloomOff = .ok b.bloom := by
    rw [parseAt_of_drop _ hrest le_rfl, b.parseAt_bloom]
  have hi' : parseAt (readIndex (b.footer.indexLen + 1) b.footer.indexLen) file' b.footer.indexOff =
      .ok b.index := by
    have ho : b.footer.indexOff = b.footer.bloomOff + b.bloom.diskSize := rfl
    rw [parseAt_of_drop _ hrest (by omega), b.parseAt_index hfit]
  have hnot : ¬ b.bytes.length < footerLen := by omega
  rw [SSTableMeta.read] at hread ⊢
  rw [hlen]
  simp only [bind, Except.bind, if_neg hnot, hf, b.parseAt_bloom, b.parseAt_firstKey,
    b.parseAt_index hfit] at hread
  simp only [bind, Except.bind, if_neg hnot, hf', hb', hi']
  cases hl : b.index.getLast? with
  | none =>
      rw [hl] at hread
      cases hread
  | some last =>
      rw [hl] at hread
      have hm := Except.ok.inj hread
      cases parseAt SSTableMeta.firstKeyParser file' 0 with
      | error e => rfl
      | ok k => exact congrArg (fun m => Except.ok { m with firstKey := k }) hm

/-- A lookup in the table reopened: below the first key as it is read, led to another block, or as
before. -/
theorem Blocks.get_reopened (b : Blocks) (hcrc : ∀ bs, Crc32.hash bs = crc32.hash bs)
    (hsort : b.entries.Pairwise fun a b => a.1 ≤ b.1) (hfit : b.IndexFits)
    (hlen : file'.length = b.bytes.length)
    (hrest : file'.drop b.footer.bloomOff = b.bytes.drop b.footer.bloomOff)
    (hs : ∀ x ∈ b.index, x.slice file' = x.slice b.bytes ∨ Spoiled (x.slice b.bytes) (x.slice file'))
    (hm : SSTableMeta.read file' = .ok m) :
    (SSTable.mk file' m).get u s =
      if u < m.firstKey.user then .ok .absent
      else if ∃ x, m.handleFor u s = some x ∧ x.slice file' ≠ x.slice b.bytes then
        .error (.invalidState "block corrupted")
      else b.table.get u s := by
  obtain ⟨k, rfl⟩ : ∃ k, { b.tableMeta with firstKey := k } = m := by
    rw [b.read_of_drop hfit hlen hrest] at hm
    cases hk : parseAt SSTableMeta.firstKeyParser file' 0 with
    | error e =>
        rw [hk] at hm
        cases hm
    | ok k =>
        rw [hk] at hm
        exact ⟨k, Except.ok.inj hm⟩
  by_cases hu : u < k.user
  · rw [if_pos hu, get_of_handleFor_none]
    exact if_pos (.inl hu)
  · rw [if_neg hu, b.get_of_spoiled hcrc rfl hlen hs, b.get_firstKey hsort hu]

/-- **Reopening a damaged table**: the first key is read from the first block without its checksum, and a
lookup below it finds nothing.  Any other lookup that comes to a spoiled block fails, and the rest
answer as before the damage. -/
theorem reopened_spoiled (hcrc : ∀ bs, Crc32.hash bs = crc32.hash bs)
    (h : writeTable es = .ok (some (file, m)))
    (hidx : (m.index.flatMap IndexedKey.bytes).length < 2 ^ 32) (hlen : file'.length = file.length)
    (hrest : file'.drop m.footer.bloomOff = file.drop m.footer.bloomOff)
    (hs : ∀ x ∈ m.index, x.slice file' = x.slice file ∨ Spoiled (x.slice file) (x.slice file')) :
    (SSTableMeta.read file' = (parseAt SSTableMeta.firstKeyParser file' 0).map fun k =>
        { m with firstKey := k }) ∧
      ∀ m', SSTableMeta.read file' = .ok m' → ∀ u s, (SSTable.mk file' m').get u s =
        if u < m'.firstKey.user then .ok .absent
        else if ∃ x, m'.handleFor u s = some x ∧ x.slice file' ≠ x.slice file then
          .error (.invalidState "block corrupted")
        else (SSTable.mk file m).get u s := by
  obtain ⟨hsort, b, rfl, rfl, rfl⟩ := writeTable_some h
  exact ⟨b.read_of_drop hidx hlen hrest, fun m' hm' u s =>
    b.get_reopened hcrc hsort hidx hlen hrest hs hm'⟩

end reopened

/-- A damaged first key hides what the table has. -/
theorem reopened_spoiled_twoVersions : ∃ file m m', @writeTable crc32 twoVersions = .ok (some (file, m)) ∧
    SSTableMeta.read (damaged file) = .ok m' ∧
    @SSTable.get crc32 ⟨file, m⟩ (.ascii [0x6b]) 1 = .ok (.found (.ascii [0x76])) ∧
    @SSTable.get crc32 ⟨damaged file, m'⟩ (.ascii [0x6b]) 1 = .ok .absent := by
  obtain ⟨file, m, m', h, ⟨-, hrest⟩, hs, -, hidx, hm, hlt⟩ := exists_of_damages damages_twoVersions
  refine ⟨file, m, m', h, hm, (@written_get crc32 _ _ _ h _ 1).1, ?_⟩
  rw [(@reopened_spoiled crc32 twoVersions file (damaged file) m (fun _ => rfl) h hidx
    List.length_set hrest fun y hy => .inr (hs y hy)).2 m' hm]
  exact if_pos hlt

/-! ### Scans -/

section scans
variable [Crc32] {es : List Entry} {block file file' : Bytes} {m : SSTableMeta}

namespace TableScan

/-- Repeated `next` returns the entries `es` in order, and then fails with `err`. -/
def Fails : TableScan → List Entry → DbError → Prop
  | t, [], err => t.next = .error err
  | t, e :: es, err => ∃ t', t.next = .ok (some e, t') ∧ Fails t' es err

/-- The entries `cur` of the current block are to come and then the bytes `tail`, of which `more` belong
to blocks. -/
structure Facing (t : TableScan) (cur : List Entry) (tail : Bytes) (more : ℕ) : Prop where
  reader : t.r = payload cur ++ tail
  block : t.blockRemaining = (cur.map Entry.diskSize).sum
  total : t.remaining = (cur.map Entry.diskSize).sum + more
  fits : ∀ e ∈ cur, e.Fits
  short : blockLen cur < 2 ^ 16

variable {t : TableScan} {e : Entry} {cur c : List Entry} {cs : List (List Entry)} {xs : List Bytes}
  {tail : Bytes} {more : ℕ}

omit [Crc32] in
theorem Facing.readEntry (h : t.Facing (e :: cur) tail more) :
    ∃ t', t.readEntry = .ok (some e.stored, t') ∧ t'.Facing cur tail more := by
  have hfit := h.fits e List.mem_cons_self
  have hlen : ((e :: cur).map Entry.diskSize).sum =
      e.diskSize + (cur.map Entry.diskSize).sum := by simp
  have hshort := h.short
  have hb := h.block
  have ht := h.total
  unfold blockLen at hshort
  rw [hlen] at hb ht hshort
  have hk : readKey t.r = .ok (e.1, valueBytes e.2 ++ (payload cur ++ tail)) := by
    rw [h.reader, payload_cons, entryBytes, List.append_assoc, List.append_assoc]
    exact decodes_parseKey lossyStr_bytes hfit.1 _
  have hv := decodes_parseValue (e := .eof) lossyStr_bytes hfit.2 (payload cur ++ tail)
  have hd : e.1.diskSize + e.2.stored.diskSize = e.diskSize := Entry.diskSize_stored e
  refine ⟨⟨payload cur ++ tail, t.blockRemaining - e.diskSize, t.remaining - e.diskSize⟩, ?_, rfl,
    ?_, ?_, fun x hx => h.fits x (List.mem_cons_of_mem e hx), ?_⟩
  · simp only [TableScan.readEntry, bind, Except.bind, hk, hv, hd]
    rw [if_neg (by omega), if_neg (by omega)]
    rfl
  · show t.blockRemaining - e.diskSize = _
    omega
  · show t.remaining - e.diskSize = _
    omega
  · unfold blockLen
    omega

theorem Facing.next_entry (h : t.Facing (e :: cur) tail more) :
    ∃ t', t.next = .ok (some e.stored, t') ∧ t'.Facing cur tail more := by
  have hpos := diskSize_entry_pos e
  have hb := h.block
  have ht := h.total
  simp only [List.map_cons, List.sum_cons] at hb ht
  unfold next
  rw [if_neg (by omega), if_neg (by omega)]
  exact h.readEntry

/-- The check of a header and as many bytes as it declares. -/
theorem checkBlock_header {sum p : Bytes} (hr : t.r = sum ++ (be 2 p.length ++ (p ++ tail)))
    (hs : sum.length = 4) (hp : p.length < 2 ^ 16) (ht : blockHeader ≤ t.remaining) :
    t.checkBlock = if (Crc32.hash p).toNat ≠ nat sum then .error (.invalidState "block corrupted")
      else .ok ⟨p ++ tail, p.length, t.remaining - blockHeader⟩ := by
  have h4 : beNat DbError.eof 4 (sum ++ (be 2 p.length ++ (p ++ tail))) =
      .ok (nat sum, be 2 p.length ++ (p ++ tail)) := by
    have hd := decodes_beNat DbError.eof (w := 4) (n := nat sum) (hs ▸ nat_lt sum)
      (be 2 p.length ++ (p ++ tail))
    rwa [← hs, be_nat, hs] at hd
  have h2 := decodes_u16 DbError.eof hp (p ++ tail)
  have ht' := take_append DbError.eof p tail
  simp only [checkBlock, bind, Except.bind, hr, h4, h2, ht']
  rw [if_neg (by omega)]
  split_ifs <;> rfl

/-- A block in place is entered. -/
theorem Facing.next_block (h : t.Facing [] (blockBytes (e :: c) ++ tail) (blockLen (e :: c) + more))
    (hshort : blockLen (e :: c) < 2 ^ 16) (hfits : ∀ x ∈ e :: c, x.Fits) :
    ∃ t', t.next = .ok (some e.stored, t') ∧ t'.Facing c tail more := by
  have hpos := diskSize_entry_pos e
  have ht : t.remaining = blockLen (e :: c) + more := by simpa using h.total
  have hb : t.blockRemaining = 0 := h.block
  have hlen : (payload (e :: c)).length < 2 ^ 16 := by
    rw [length_payload]
    unfold blockLen at hshort
    omega
  have hr : t.r = be 4 (Crc32.hash (payload (e :: c))).toNat ++
      (be 2 (payload (e :: c)).length ++ (payload (e :: c) ++ tail)) := by
    rw [h.reader, length_payload]
    simp [payload, blockBytes]
  have hcheck := checkBlock_header hr (length_be 4 _) hlen (by rw [ht, blockLen]; omega)
  have hfits4 : (Crc32.hash (payload (e :: c))).toNat < 256 ^ 4 :=
    (Crc32.hash (payload (e :: c))).toNat_lt
  rw [nat_be_mod, Nat.mod_eq_of_lt hfits4, if_neg (by simp)] at hcheck
  have hface : Facing ⟨payload (e :: c) ++ tail, (payload (e :: c)).length, t.remaining - blockHeader⟩
      (e :: c) tail more := by
    refine ⟨rfl, length_payload _, ?_, hfits, hshort⟩
    show t.remaining - blockHeader = _
    rw [ht, blockLen]
    omega
  obtain ⟨t', hread, hface'⟩ := hface.readEntry
  refine ⟨t', ?_, hface'⟩
  have hne : t.remaining ≠ 0 := by
    rw [ht, blockLen, blockHeader]
    omega
  have hsum : (payload (e :: c)).length ≠ 0 := by
    rw [length_payload, List.map_cons, List.sum_cons]
    omega
  simp only [next, if_neg hne, if_pos hb, bind, Except.bind, hcheck]
  rw [if_neg hsum]
  exact hread

/-- A block whose checksum is not that of its payload ends the scan. -/
theorem Facing.next_mismatched {block : Bytes} (h : t.Facing [] (block ++ tail) (blockLen c + more))
    (hshort : blockLen c < 2 ^ 16) (hm : Mismatched c block) :
    t.next = .error (.invalidState "block corrupted") := by
  obtain ⟨sum, p, rfl, hs, hp, hne⟩ := hm
  have ht : t.remaining = blockLen c + more := by simpa using h.total
  have hb : t.blockRemaining = 0 := h.block
  have hlen : p.length < 2 ^ 16 := by
    unfold blockLen at hshort
    omega
  have hr : t.r = sum ++ (be 2 p.length ++ (p ++ tail)) := by
    rw [h.reader, hp]
    simp [payload]
  have hcheck := checkBlock_header hr hs hlen (by rw [ht, blockLen]; omega)
  rw [if_pos hne] at hcheck
  have hne0 : t.remaining ≠ 0 := by
    rw [ht, blockLen, blockHeader]
    omega
  simp only [next, if_neg hne0, if_pos hb, bind, Except.bind, hcheck]

/-- A scan yields what stands in front of the first block that does not match. -/
theorem Facing.fails_or_yields (h : t.Facing cur (xs.flatten ++ tail) (blocksLen cs))
    (hx : List.Forall₂ (fun c x => x = blockBytes c ∨ Mismatched c x) cs xs)
    (hne : ∀ c ∈ cs, c ≠ []) (hshort : ∀ c ∈ cs, blockLen c < 2 ^ 16)
    (hfits : ∀ c ∈ cs, ∀ e ∈ c, e.Fits) :
    (xs = cs.map blockBytes ∧ t.Yields ((cur ++ cs.flatten).map Entry.stored)) ∨
      ∃ pre c post x post', cs = pre ++ c :: post ∧ xs = pre.map blockBytes ++ x :: post' ∧
        Mismatched c x ∧
        t.Fails ((cur ++ pre.flatten).map Entry.stored) (.invalidState "block corrupted") := by
  induction hx generalizing t cur with
  | nil =>
      refine .inl ⟨rfl, ?_⟩
      rw [List.flatten_nil, List.append_nil]
      induction cur generalizing t with
      | nil =>
          have ht : t.remaining = 0 := h.total
          show t.next = _
          rw [next, if_pos ht]
      | cons e cur ih =>
          obtain ⟨t', hn, h'⟩ := h.next_entry
          exact ⟨t', hn, ih h'⟩
  | @cons c x cs xs hcx hx ih =>
      induction cur generalizing t with
      | nil =>
          have htail : (x :: xs).flatten ++ tail = x ++ (xs.flatten ++ tail) := by simp
          have hsum : blocksLen (c :: cs) = blockLen c + blocksLen cs := rfl
          rw [htail, hsum] at h
          have hc := hshort c List.mem_cons_self
          rcases hcx with rfl | hm
          · obtain ⟨e, c, rfl⟩ := List.exists_cons_of_ne_nil (hne _ List.mem_cons_self)
            obtain ⟨t', hn, h'⟩ := h.next_block hc (hfits _ List.mem_cons_self)
            rcases ih h' (fun d hd => hne d (List.mem_cons_of_mem _ hd))
              (fun d hd => hshort d (List.mem_cons_of_mem _ hd))
              (fun d hd => hfits d (List.mem_cons_of_mem _ hd)) with
              ⟨rfl, hy⟩ | ⟨pre, d, post, y, post', rfl, rfl, hm, hf⟩
            · exact .inl ⟨rfl, t', hn, hy⟩
            · exact .inr ⟨(e :: c) :: pre, d, post, y, post', rfl, rfl, hm, t', hn, hf⟩
          · exact .inr ⟨[], c, cs, x, xs, rfl, rfl, hm, h.next_mismatched hc hm⟩
      | cons e cur ihc =>
          obtain ⟨t', hn, h'⟩ := h.next_entry
          rcases ihc h' with ⟨hxs, hy⟩ | ⟨pre, d, post, y, post', hcs, hxs, hm, hf⟩
          · exact .inl ⟨hxs, t', hn, hy⟩
          · exact .inr ⟨pre, d, post, y, post', hcs, hxs, hm, t', hn, hf⟩

end TableScan

omit [Crc32] in
/-- The slices of an index are the bytes that it spans. -/
theorem flatten_slices (f : Bytes) (off : ℕ) (chunks : List (List Entry)) :
    ((indexFrom off chunks).map fun x => x.slice f).flatten = (f.drop off).take (blocksLen chunks) := by
  induction chunks generalizing off with
  | nil => simp [indexFrom, blocksLen]
  | cons c chunks ih =>
      have hsum : blocksLen (c :: chunks) = blockLen c + blocksLen chunks := rfl
      rw [indexFrom, List.map_cons, List.flatten_cons, ih, IndexedKey.slice, hsum, List.take_add,
        List.drop_drop]

omit [Crc32] in
theorem indexFrom_append (off : ℕ) (cs ds : List (List Entry)) :
    indexFrom off (cs ++ ds) = indexFrom off cs ++ indexFrom (off + blocksLen cs) ds := by
  induction cs generalizing off with
  | nil => rfl
  | cons c cs ih =>
      rw [List.cons_append, indexFrom, ih, indexFrom, List.cons_append, Nat.add_assoc]
      rfl

/-- In the file as it was written the handles point to the blocks. -/
theorem slices_written (front rest : Bytes) (chunks : List (List Entry)) :
    ((indexFrom front.length chunks).map fun x => x.slice (front ++ (blocksBytes chunks ++ rest))) =
      chunks.map blockBytes := by
  induction chunks generalizing front with
  | nil => rfl
  | cons c chunks ih =>
      have hbytes : front ++ (blocksBytes (c :: chunks) ++ rest) =
          (front ++ blockBytes c) ++ (blocksBytes chunks ++ rest) := by simp [blocksBytes]
      have hlen : front.length + blockLen c = (front ++ blockBytes c).length := by simp
      rw [indexFrom, List.map_cons, List.map_cons, hbytes, hlen, ih, IndexedKey.slice,
        List.append_assoc, List.drop_left, List.take_left' (length_blockBytes c)]

theorem Blocks.slices (b : Blocks) :
    ((indexFrom 0 b.chunks).map fun x => x.slice b.bytes) = b.chunks.map blockBytes := by
  have h := slices_written [] (be 4 b.bloom.bytes.length ++
    (b.bloom.bytes ++ (b.indexBytes ++ b.footer.bytes))) b.chunks
  rwa [List.nil_append, ← Blocks.bytes, List.length_nil] at h

theorem Mismatched.ne_blockBytes (h : Mismatched es block) : block ≠ blockBytes es := by
  obtain ⟨sum, p, rfl, hs, hp, hne⟩ := h
  intro he
  obtain ⟨rfl, hrest⟩ := List.append_inj he (by rw [hs, length_be])
  obtain rfl := List.append_cancel_left hrest
  have hfits : (Crc32.hash (payload es)).toNat < 256 ^ 4 := (Crc32.hash (payload es)).toNat_lt
  rw [nat_be_mod, Nat.mod_eq_of_lt hfits] at hne
  exact hne rfl

omit [Crc32] in
theorem forall₂_of_map_eq {α β γ δ : Type} {f : α → δ} {g : α → γ} {k : β → γ} {R : β → δ → Prop}
    {l : List α} {ys : List β} (h : l.map g = ys.map k) (hR : ∀ x ∈ l, ∀ y, g x = k y → R y (f x)) :
    List.Forall₂ R ys (l.map f) := by
  induction l generalizing ys with
  | nil =>
      obtain rfl : ys = [] := by simpa using h.symm
      exact .nil
  | cons x l ih =>
      cases ys with
      | nil => cases h
      | cons y ys =>
          obtain ⟨hxy, hl⟩ := List.cons.inj h
          exact .cons (hR x List.mem_cons_self y hxy) (ih hl fun z hz => hR z (List.mem_cons_of_mem x hz))

/-- A scan of a file of which only blocks are damaged starts at the blocks. -/
theorem Blocks.open_of_drop (b : Blocks) (hfile : b.bytes.length < 2 ^ 64)
    (hlen : file'.length = b.bytes.length)
    (hrest : file'.drop (blocksLen b.chunks) = b.bytes.drop (blocksLen b.chunks)) :
    TableScan.open file' = .ok ⟨file', 0, blocksLen b.chunks⟩ := by
  have hl : b.bytes.length = blocksLen b.chunks + b.bloom.diskSize + b.indexBytes.length + footerLen :=
    b.length_bytes
  obtain ⟨f, hf, -, hoff, -⟩ := b.parseAt_footer
  have hoff : f.bloomOff = blocksLen b.chunks := by
    rw [hoff]
    exact Nat.mod_eq_of_lt (show blocksLen b.chunks < _ by omega)
  have hf' : parseAt parseFooter file' (file'.length - footerLen) = .ok f := by
    rw [hlen, parseAt_of_drop _ hrest (by omega), hf]
  have hlong : ¬ file'.length < footerLen := by omega
  simp only [TableScan.open, bind, Except.bind, hf', if_neg hlong, hoff]
  rfl

/-- Every handle points to its block or to a mismatched one. -/
theorem Blocks.mismatched_slices (b : Blocks) (hcrc : ∀ bs, Crc32.hash bs = crc32.hash bs)
    (hs : ∀ x ∈ b.index, x.slice file' = x.slice b.bytes ∨ Spoiled (x.slice b.bytes) (x.slice file')) :
    List.Forall₂ (fun c x => x = blockBytes c ∨ Mismatched c x) b.chunks
      ((indexFrom 0 b.chunks).map fun x => x.slice file') := by
  refine forall₂_of_map_eq b.slices fun x hx c hc => ?_
  rcases hs x hx with hsame | hspoiled
  · exact .inl (hsame.trans hc)
  · rw [hc] at hspoiled
    exact .inr (mismatched_of_spoiled hcrc hspoiled)

/-- Where the slices are blocks up to one that is mismatched, that one is the first to differ. -/
theorem Blocks.slices_split (b : Blocks) {pre post : List (List Entry)} {c : List Entry}
    {x : Bytes} {post' : List Bytes} (hc : b.chunks = pre ++ c :: post)
    (hx : ((indexFrom 0 b.chunks).map fun x => x.slice file') = pre.map blockBytes ++ x :: post')
    (hm : Mismatched c x) :
    (∀ y ∈ indexFrom 0 pre, y.slice file' = y.slice b.bytes) ∧
      IndexedKey.slice ⟨lastKeyOf c, blocksLen pre, blockLen c⟩ file' ≠
        IndexedKey.slice ⟨lastKeyOf c, blocksLen pre, blockLen c⟩ b.bytes := by
  have hwritten := b.slices
  have hidx : indexFrom 0 b.chunks = indexFrom 0 pre ++
      ⟨lastKeyOf c, blocksLen pre, blockLen c⟩ :: indexFrom (blocksLen pre + blockLen c) post := by
    rw [hc, indexFrom_append, Nat.zero_add, indexFrom]
  rw [hidx, List.map_append, List.map_cons] at hx
  rw [hidx, hc, List.map_append, List.map_append, List.map_cons, List.map_cons] at hwritten
  obtain ⟨hpre, hcons⟩ := List.append_inj hx (by simp [length_indexFrom])
  obtain ⟨hpre', hcons'⟩ := List.append_inj hwritten (by simp [length_indexFrom])
  refine ⟨List.map_inj_left.mp (hpre.trans hpre'.symm), ?_⟩
  rw [(List.cons.inj hcons).1, (List.cons.inj hcons').1]
  exact hm.ne_blockBytes

/-- **Scans of a damaged table**: where some blocks are spoiled, a scan returns the entries in front of the
first one and then fails. -/
theorem scan_spoiled (hcrc : ∀ bs, Crc32.hash bs = crc32.hash bs)
    (h : writeTable es = .ok (some (file, m))) (hfile : file.length < 2 ^ 64)
    (hlen : file'.length = file.length)
    (hrest : file'.drop m.footer.bloomOff = file.drop m.footer.bloomOff)
    (hs : ∀ x ∈ m.index, x.slice file' = x.slice file ∨ Spoiled (x.slice file) (x.slice file')) :
    ∃ chunks t, chunks.flatten = es ∧ m.index = indexFrom 0 chunks ∧ TableScan.open file' = .ok t ∧
      (file' = file ∧ t.Yields (es.map Entry.stored) ∨
        ∃ pre c post, chunks = pre ++ c :: post ∧
          (∀ x ∈ indexFrom 0 pre, x.slice file' = x.slice file) ∧
          IndexedKey.slice ⟨lastKeyOf c, blocksLen pre, blockLen c⟩ file' ≠
            IndexedKey.slice ⟨lastKeyOf c, blocksLen pre, blockLen c⟩ file ∧
          t.Fails (pre.flatten.map Entry.stored) (.invalidState "block corrupted")) := by
  obtain ⟨-, b, rfl, rfl, rfl⟩ := writeTable_some h
  have hrest : file'.drop (blocksLen b.chunks) = b.bytes.drop (blocksLen b.chunks) := hrest
  have hface : TableScan.Facing ⟨file', 0, blocksLen b.chunks⟩ []
      (((indexFrom 0 b.chunks).map fun x => x.slice file').flatten ++ file'.drop (blocksLen b.chunks))
      (blocksLen b.chunks) := by
    refine ⟨?_, rfl, by simp, List.forall_mem_nil _, by decide⟩
    rw [flatten_slices, List.drop_zero, List.take_append_drop]
    rfl
  refine ⟨b.chunks, _, rfl, rfl, b.open_of_drop hfile hlen hrest, ?_⟩
  rcases hface.fails_or_yields (b.mismatched_slices hcrc hs) b.ne_nil b.short b.fits with
    ⟨hall, hy⟩ | ⟨pre, c, post, x, post', hc, hx, hm, hfails⟩
  · refine .inl ⟨?_, hy⟩
    have htake := congrArg List.flatten (hall.trans b.slices.symm)
    rw [flatten_slices, flatten_slices, List.drop_zero, List.drop_zero] at htake
    rw [← List.take_append_drop (blocksLen b.chunks) file', htake, hrest, List.take_append_drop]
  · obtain ⟨hpre, hne⟩ := b.slices_split hc hx hm
    exact .inr ⟨pre, c, post, hc, hpre, hne, hfails⟩

end scans

theorem scan_spoiled_twoVersions : ∃ file m t, @writeTable crc32 twoVersions = .ok (some (file, m)) ∧
    TableScan.open (damaged file) = .ok t ∧
    @TableScan.Fails crc32 t [] (.invalidState "block corrupted") := by
  obtain ⟨file, m, -, h, ⟨hlen, hrest⟩, hs, ⟨x, hx, -⟩, -⟩ := exists_of_damages damages_twoVersions
  obtain ⟨chunks, t, -, hidx, hopen, hread⟩ := @scan_spoiled crc32 twoVersions file (damaged file) m
    (fun _ => rfl) h hlen List.length_set hrest (fun y hy => .inr (hs y hy))
  refine ⟨file, m, t, h, hopen, ?_⟩
  rcases hread with ⟨hsame, -⟩ | ⟨pre, c, post, rfl, hpre, -, hfails⟩
  · exact ((hs x hx).ne (congrArg x.slice hsame)).elim
  · cases pre with
    | nil => exact hfails
    | cons p pre =>
        have hp : ⟨lastKeyOf p, 0, blockLen p⟩ ∈ indexFrom 0 (p :: pre) := List.mem_cons_self
        refine ((hs _ ?_).ne (hpre _ hp)).elim
        rw [hidx]
        exact List.mem_cons_self

end LowDB
