import LowDB.Format

/-! # The bloom filter of a table

`sstable/src/bloom.rs`: a bit array with the probe count in its last byte.  A key sets the bits at
`k` positions derived from its hash, and may be contained if all of them are set.  Setting bits
never clears one, so a key whose hash was added is always found (`mayContain_build`). -/

namespace LowDB

/-- `BloomFilter(Vec<u8>)`. -/
structure BloomFilter where
  bytes : Bytes
deriving DecidableEq

namespace BloomFilter

/-- FNV-1a over the bytes of the key. -/
def hash64 (key : Str) : UInt64 :=
  key.bytes.foldl (fun h x => (h ^^^ x.toUInt64) * 0x100000001b3) 0xcbf29ce484222325

/-- `h.rotate_left(15)`. -/
def delta (h : UInt64) : UInt64 := (h <<< 15) ||| (h >>> 49)

/-- The positions `b % nbits, (b + delta) % nbits, …` of `k` probes. -/
def probes (delta : UInt64) (nbits : ℕ) : ℕ → UInt64 → List ℕ
  | 0, _ => []
  | k + 1, b => b.toNat % nbits :: probes delta nbits k (b + delta)

/-- `1 << (pos % 8)`. -/
def mask (pos : ℕ) : UInt8 := 1 <<< UInt8.ofNat (pos % 8)

/-- `out[pos / 8] |= 1 << (pos % 8)`. -/
def setBit (out : Bytes) (pos : ℕ) : Bytes := out.modify (pos / 8) fun b => b ||| mask pos

/-- `bits[pos / 8] & (1 << (pos % 8)) != 0`. -/
def hasBit (bits : Bytes) (pos : ℕ) : Bool := bits.getD (pos / 8) 0 &&& mask pos ≠ 0

/-- The probe count `build` derives: `(bits_per_key as f64 * 0.69) as u32`, between 1 and 30. -/
def probeCount (bitsPerKey : ℕ) : ℕ := max 1 (min (bitsPerKey * 69 / 100) 30)

/-- `(len * bits_per_key).max(64).div_ceil(8)`. -/
def byteCount (len bitsPerKey : ℕ) : ℕ := (max (len * bitsPerKey) 64 + 7) / 8

def setBits (out : Bytes) (poss : List ℕ) : Bytes := poss.foldl setBit out

def build (hashes : List UInt64) (bitsPerKey : ℕ) : BloomFilter :=
  let k := probeCount bitsPerKey
  let nbytes := byteCount hashes.length bitsPerKey
  let bits := hashes.foldl (fun out h => setBits out (probes (delta h) (nbytes * 8) k h))
    (List.replicate nbytes 0)
  ⟨bits ++ [UInt8.ofNat k]⟩

def mayContain (f : BloomFilter) (key : Str) : Bool :=
  if f.bytes.length < 2 then true
  else
    let k := (f.bytes.getLastD 0).toNat
    let bits := f.bytes.dropLast
    let h := hash64 key
    (probes (delta h) (bits.length * 8) k h).all (hasBit bits)

/-- `disk_size`: a `u32` length and the bytes. -/
def diskSize (f : BloomFilter) : ℕ := 4 + f.bytes.length

/-! ### No false negatives -/

@[simp] theorem length_setBit (out : Bytes) (pos : ℕ) : (setBit out pos).length = out.length :=
  List.length_modify _ _ _

@[simp] theorem length_setBits (out : Bytes) (poss : List ℕ) :
    (setBits out poss).length = out.length := by
  induction poss generalizing out with
  | nil => rfl
  | cons p ps ih => exact (ih _).trans (length_setBit out p)

theorem mask_ne_zero (pos : ℕ) : mask pos ≠ 0 := by
  have h : ∀ i < 8, (1 : UInt8) <<< UInt8.ofNat i ≠ 0 := by decide
  exact h _ (Nat.mod_lt _ (by omega))

theorem and_or_ne_zero {a b m : UInt8} (h : a &&& m ≠ 0) : (a ||| b) &&& m ≠ 0 := by
  intro hz
  have hd : (a ||| b) &&& m = (a &&& m) ||| (b &&& m) :=
    UInt8.toBitVec_inj.mp BitVec.and_or_distrib_right
  rw [hd, UInt8.or_eq_zero_iff] at hz
  exact h hz.1

theorem getD_setBit (out : Bytes) (pos i : ℕ) :
    (setBit out pos).getD i 0 =
      if pos / 8 = i ∧ i < out.length then out.getD i 0 ||| mask pos else out.getD i 0 := by
  simp only [List.getD_eq_getElem?_getD, setBit, List.getElem?_modify]
  by_cases hi : i < out.length
  · by_cases hp : pos / 8 = i <;> simp [hi, hp]
  · simp [hi]

theorem hasBit_setBit_self {out : Bytes} {pos : ℕ} (h : pos / 8 < out.length) :
    hasBit (setBit out pos) pos = true := by
  rw [hasBit, getD_setBit, if_pos ⟨rfl, h⟩, decide_eq_true_iff]
  intro hz
  have hd : (out.getD (pos / 8) 0 ||| mask pos) &&& mask pos =
      (out.getD (pos / 8) 0 &&& mask pos) ||| (mask pos &&& mask pos) :=
    UInt8.toBitVec_inj.mp BitVec.and_or_distrib_right
  rw [hd, UInt8.and_self, UInt8.or_eq_zero_iff] at hz
  exact mask_ne_zero pos hz.2

theorem hasBit_setBit {out : Bytes} {pos q : ℕ} (h : hasBit out q = true) :
    hasBit (setBit out pos) q = true := by
  rw [hasBit, decide_eq_true_iff] at h ⊢
  rw [getD_setBit]
  split_ifs
  · exact and_or_ne_zero h
  · exact h

theorem hasBit_setBits {out : Bytes} {poss : List ℕ} {q : ℕ} (h : hasBit out q = true) :
    hasBit (setBits out poss) q = true := by
  induction poss generalizing out with
  | nil => exact h
  | cons p ps ih => exact ih (hasBit_setBit h)

theorem hasBit_setBits_of_mem {out : Bytes} {poss : List ℕ} {q : ℕ} (hq : q ∈ poss)
    (hlt : q / 8 < out.length) : hasBit (setBits out poss) q = true := by
  induction poss generalizing out with
  | nil => cases hq
  | cons p ps ih =>
      rcases List.mem_cons.mp hq with rfl | hq
      · exact @hasBit_setBits (setBit out q) ps q (hasBit_setBit_self hlt)
      · exact ih hq (by rwa [length_setBit])

theorem probe_lt {delta : UInt64} {nbits k : ℕ} {b : UInt64} (hpos : 0 < nbits) {q : ℕ}
    (hq : q ∈ probes delta nbits k b) : q < nbits := by
  induction k generalizing b with
  | zero => cases hq
  | succ k ih =>
      rcases List.mem_cons.mp hq with rfl | hq
      · exact Nat.mod_lt _ hpos
      · exact ih hq

theorem length_fold (f : UInt64 → List ℕ) (hashes : List UInt64) (out : Bytes) :
    (hashes.foldl (fun out h => setBits out (f h)) out).length = out.length := by
  induction hashes generalizing out with
  | nil => rfl
  | cons h hs ih => exact (ih _).trans (length_setBits _ _)

theorem hasBit_fold {f : UInt64 → List ℕ} {hashes : List UInt64} {out : Bytes} {q : ℕ}
    (h : hasBit out q = true) :
    hasBit (hashes.foldl (fun out h => setBits out (f h)) out) q = true := by
  induction hashes generalizing out with
  | nil => exact h
  | cons a as ih => exact ih (hasBit_setBits h)

theorem hasBit_fold_of_mem {f : UInt64 → List ℕ} {hashes : List UInt64} {out : Bytes}
    {h : UInt64} (hh : h ∈ hashes) {q : ℕ} (hq : q ∈ f h) (hlt : q / 8 < out.length) :
    hasBit (hashes.foldl (fun out h => setBits out (f h)) out) q = true := by
  induction hashes generalizing out with
  | nil => cases hh
  | cons a as ih =>
      rcases List.mem_cons.mp hh with rfl | hh
      · exact @hasBit_fold f as _ q (hasBit_setBits_of_mem hq hlt)
      · exact ih hh (by rwa [length_setBits])

theorem length_build (hashes : List UInt64) (bitsPerKey : ℕ) :
    (build hashes bitsPerKey).bytes.length = byteCount hashes.length bitsPerKey + 1 := by
  simp only [build, List.length_append, List.length_singleton]
  rw [length_fold, List.length_replicate]

theorem byteCount_pos (len bitsPerKey : ℕ) : 8 ≤ byteCount len bitsPerKey := by
  unfold byteCount
  omega

/-- A key whose hash was added is found. -/
theorem mayContain_build {hashes : List UInt64} {key : Str} (bitsPerKey : ℕ)
    (h : hash64 key ∈ hashes) : (build hashes bitsPerKey).mayContain key = true := by
  have hpos := byteCount_pos hashes.length bitsPerKey
  have hlen := length_build hashes bitsPerKey
  rw [mayContain, if_neg (by omega)]
  have hk : (UInt8.ofNat (probeCount bitsPerKey)).toNat = probeCount bitsPerKey := by
    have hle : probeCount bitsPerKey ≤ 30 := by unfold probeCount; omega
    exact (UInt8.toNat_ofNat').trans (Nat.mod_eq_of_lt (by omega))
  simp only [build, List.dropLast_concat, List.getLastD_concat, List.all_eq_true]
  rw [hk, length_fold, List.length_replicate]
  intro q hq
  have hlt := probe_lt (by omega) hq
  exact hasBit_fold_of_mem h hq (by rw [List.length_replicate]; omega)

end BloomFilter

end LowDB
