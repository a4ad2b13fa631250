import LowDB.MemTable
import LowDB.Sstable.Bloom

/-! # The table writer

`sstable/src/writer.rs`.  Entries are collected in a block behind six bytes of header; a block
longer than `BLOCK_SIZE` is closed: its header gets the checksum and the payload length, and the
index an entry with the block's last key.  `finish` closes the last block and writes the bloom
filter, the index and the footer.

CRC-32 is a parameter: the code relies on it only as a function of the payload. -/

namespace LowDB

open Codec

/-- `crc32fast::hash`. -/
class Crc32 where
  hash : Bytes → UInt32

/-- One bit of the reflected CRC-32. -/
def crcBit (c : ℕ) : ℕ := if c % 2 = 1 then (c / 2) ^^^ 0xEDB88320 else c / 2

def crcByte (c : ℕ) (b : UInt8) : ℕ := Nat.repeat crcBit 8 (c ^^^ b.toNat)

/-- CRC-32 as `crc32fast` computes it. -/
@[reducible] def crc32 : Crc32 where
  hash bs := UInt32.ofNat (bs.foldl crcByte 0xFFFFFFFF ^^^ 0xFFFFFFFF)

example : crc32.hash [0x31, 0x32, 0x33, 0x34, 0x35, 0x36, 0x37, 0x38, 0x39] = 0xCBF43926 := by
  decide +kernel

def blockHeader : ℕ := 4 + 2
def blockSize : ℕ := 4 * 1024
def bitsPerKey : ℕ := 10
def footerLen : ℕ := 8 + 8 + 8 + 4 + 4 + 8 + 8 + 4
def magic : ℕ := 0x5354424C

/-! ### Encoding -/

/-- `buf[offset..offset + v.len()].copy_from_slice(v)`. -/
def patch (buf : Bytes) (offset : ℕ) (v : Bytes) : Bytes :=
  buf.take offset ++ (v ++ buf.drop (offset + v.length))

def encodeKey (key : Key) : DbResult Bytes := do
  let len ← tryU16 key.user.len
  return be 2 len ++ (key.user.bytes ++ be 8 key.seq.toNat)

def encodeValue : Value → DbResult Bytes
  | .set value => do
    let len ← tryU16 value.len
    return be 2 len ++ value.bytes
  | .delete => return be 2 0

/-- `encode`: the bytes it appends to the block. -/
def encode (key : Key) (value : Value) : DbResult Bytes := do
  let k ← encodeKey key
  let v ← encodeValue value
  return k ++ v

theorem encodeKey_eq (k : Key) :
    encodeKey k = if k.Fits then .ok (keyBytes k) else .error .tryFromInt := by
  unfold encodeKey
  by_cases h : k.Fits
  · rw [if_pos h, tryU16_ok h]
    rfl
  · rw [if_neg h, tryU16_error h]
    rfl

theorem encodeValue_eq (v : Value) :
    encodeValue v = if v.Fits then .ok (valueBytes v) else .error .tryFromInt := by
  cases v with
  | delete => rfl
  | set s =>
      rw [encodeValue]
      by_cases h : (Value.set s).Fits
      · rw [if_pos h, tryU16_ok (n := s.len) h]
        rfl
      · rw [if_neg h, tryU16_error (n := s.len) h]
        rfl

theorem encode_eq (e : Entry) :
    encode e.1 e.2 = if e.Fits then .ok (entryBytes e) else .error .tryFromInt := by
  rw [encode, encodeKey_eq, encodeValue_eq]
  by_cases hk : e.1.Fits
  · by_cases hv : e.2.Fits
    · rw [if_pos hk, if_pos hv, if_pos (show e.Fits from ⟨hk, hv⟩)]
      rfl
    · rw [if_pos hk, if_neg hv, if_neg fun h : e.Fits => hv h.2]
      rfl
  · rw [if_neg hk, if_neg fun h : e.Fits => hk h.1]
    rfl

/-- `impl Display for Key`. -/
def Key.display (k : Key) : String :=
  let user := (String.fromUTF8? ⟨k.user.bytes.toArray⟩).getD ""
  s!"({user}, {k.seq})"

/-! ### Index and footer -/

structure IndexedKey where
  key : Key
  blockOff : ℕ
  blockLen : ℕ
deriving DecidableEq

namespace IndexedKey

def diskSize (i : IndexedKey) : ℕ := i.key.diskSize + 8 + 2

def listDiskSize (index : List IndexedKey) : ℕ := index.foldl (fun size i => size + i.diskSize) 0

/-- The bytes `write_to_buf` appends for a key that fits. -/
def bytes (i : IndexedKey) : Bytes := keyBytes i.key ++ (be 8 i.blockOff ++ be 2 i.blockLen)

/-- `write_to_buf`: the bytes it appends. -/
def write (i : IndexedKey) : DbResult Bytes := do
  let k ← encodeKey i.key
  return k ++ (be 8 i.blockOff ++ be 2 i.blockLen)

@[simp] theorem length_bytes (i : IndexedKey) : i.bytes.length = i.diskSize := by
  simp only [bytes, List.length_append, length_keyBytes, length_be, diskSize, Nat.add_assoc]

theorem write_of_fits {i : IndexedKey} (h : i.key.Fits) : i.write = .ok i.bytes := by
  rw [write, encodeKey_eq, if_pos h]
  rfl

theorem foldl_add (index : List IndexedKey) (n : ℕ) :
    index.foldl (fun size i => size + i.diskSize) n = n + (index.flatMap bytes).length := by
  induction index generalizing n with
  | nil => rfl
  | cons i is ih =>
      rw [List.foldl_cons, ih, List.flatMap_cons, List.length_append, length_bytes]
      omega

theorem listDiskSize_eq (index : List IndexedKey) :
    listDiskSize index = (index.flatMap bytes).length := (foldl_add index 0).trans (Nat.zero_add _)

end IndexedKey

structure Footer where
  entries : ℕ
  bloomOff : ℕ
  indexOff : ℕ
  indexLen : ℕ
  indexCount : ℕ
  smallestSeq : ℕ
  largestSeq : ℕ
  magic : ℕ
deriving DecidableEq

/-- `Footer::write_to_buf`. -/
def Footer.bytes (f : Footer) : Bytes :=
  be 8 f.entries ++ (be 8 f.bloomOff ++ (be 8 f.indexOff ++ (be 4 f.indexLen ++
    (be 4 f.indexCount ++ (be 8 f.smallestSeq ++ (be 8 f.largestSeq ++ be 4 f.magic))))))

@[simp] theorem Footer.length_bytes (f : Footer) : f.bytes.length = footerLen := by
  simp [Footer.bytes, footerLen]

structure SSTableMeta where
  fileSize : ℕ
  bloom : BloomFilter
  firstKey : Key
  lastKey : Key
  footer : Footer
  index : List IndexedKey
deriving DecidableEq

/-! ### The writer -/

/-- `SSTableWriter`; `file` is everything handed to the buffered file. -/
structure SSTableWriter where
  file : Bytes
  block : Bytes
  offset : ℕ
  indexBytes : Bytes
  index : List IndexedKey
  hashes : List UInt64
  entries : ℕ
  firstKey : Option Key
  lastKey : Option Key
  smallestSeq : ℕ
  largestSeq : ℕ

namespace SSTableWriter

/-- `reset_block`: space for the checksum and the payload length. -/
def resetBlock : Bytes := be 4 0 ++ be 2 0

def create : SSTableWriter :=
  ⟨[], resetBlock, 0, [], [], [], 0, none, none, 0, 0⟩

variable [Crc32]

/-- The block with its header filled in. -/
def sealBlock (block : Bytes) (payloadLen : ℕ) : Bytes :=
  let crc := Crc32.hash (block.drop blockHeader)
  patch (patch block 0 (be 4 crc.toNat)) 4 (be 2 payloadLen)

def flushBlock (w : SSTableWriter) : DbResult SSTableWriter :=
  if w.block.length ≤ blockHeader then .ok w
  else
    match w.lastKey with
    | none => .error (.invalidState "last block is none")
    | some last => do
      let len ← tryU16 w.block.length
      let payloadLen := len - blockHeader
      let indexKey : IndexedKey := ⟨last, w.offset, len⟩
      let ib ← indexKey.write
      return { w with
        file := w.file ++ sealBlock w.block payloadLen
        indexBytes := w.indexBytes ++ ib
        index := w.index ++ [indexKey]
        offset := w.offset + len
        block := resetBlock }

/-- The part of `add` before the block is closed, for an encoded entry. -/
def push (w : SSTableWriter) (key : Key) (bytes : Bytes) : SSTableWriter :=
  { w with
    hashes :=
      if w.lastKey.all fun lk => lk.user ≠ key.user then
        w.hashes ++ [BloomFilter.hash64 key.user]
      else w.hashes
    block := w.block ++ bytes
    firstKey := if w.firstKey.isNone then some key else w.firstKey
    smallestSeq := if w.firstKey.isNone then key.seq.toNat else min w.smallestSeq key.seq.toNat
    largestSeq := if w.firstKey.isNone then key.seq.toNat else max w.largestSeq key.seq.toNat
    lastKey := some key
    entries := w.entries + 1 }

def add (w : SSTableWriter) (key : Key) (value : Value) : DbResult SSTableWriter :=
  match w.lastKey with
  | some last =>
    if key < last then
      .error (.invalidValue s!"key: {key.display} < last: {last.display}")
    else addEncoded w
  | none => addEncoded w
where
  addEncoded (w : SSTableWriter) : DbResult SSTableWriter := do
    let bytes ← encode key value
    let w := w.push key bytes
    if blockSize < w.block.length then w.flushBlock else .ok w

/-- `index_len += i.disk_size() as u32`, as a release build adds. -/
def indexLen (index : List IndexedKey) : ℕ :=
  index.foldl (fun n i => (n + i.diskSize % 2 ^ 32) % 2 ^ 32) 0

/-- `finish`: the bytes of the file that is renamed into place, and its metadata. -/
def finish (w : SSTableWriter) : DbResult (Option (Bytes × SSTableMeta)) :=
  if w.entries = 0 then .ok none
  else do
    let w ← w.flushBlock
    let bloom := BloomFilter.build w.hashes bitsPerKey
    let bloomOff := w.offset
    let bloomLen ← tryU32 bloom.bytes.length
    let indexOff := bloomOff + bloom.diskSize
    let footer : Footer :=
      { entries := w.entries
        bloomOff
        indexOff
        indexLen := indexLen w.index
        indexCount := w.index.length % 2 ^ 32
        smallestSeq := w.smallestSeq
        largestSeq := w.largestSeq
        magic }
    return some
      (w.file ++ (be 4 bloomLen ++ (bloom.bytes ++ (w.indexBytes ++ footer.bytes))),
        { fileSize := indexOff + IndexedKey.listDiskSize w.index + footerLen
          bloom
          firstKey := w.firstKey.getD ⟨.empty, 0⟩
          lastKey := w.lastKey.getD ⟨.empty, 0⟩
          footer
          index := w.index })

/-- `for (k, v) in es { writer.add(k, v).await?; }`. -/
def addAll (w : SSTableWriter) (es : List Entry) : DbResult SSTableWriter :=
  es.foldlM (fun w e => w.add e.1 e.2) w

end SSTableWriter

end LowDB
