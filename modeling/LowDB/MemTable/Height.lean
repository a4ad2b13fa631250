import LowDB.MemTable.SkipList

/-! # Heights

`random_height`: each thread has a 64-bit state of its own, which is 0 until the thread takes a seed
from the shared counter.  A state is not 0 again after it was drawn from (`xorshift_ne_zero`), so a
thread takes one seed, and every height is one that a tower can have (`heights`). -/

namespace LowDB

namespace SkipList

def BRANCHING : UInt64 := 4

/-- What `SEED` starts with and is advanced by. -/
def GOLDEN : UInt64 := 0x9E3779B97F4A7C15

/-- xorshift64. -/
def xorshift (x : UInt64) : UInt64 :=
  let x := x ^^^ (x <<< 13)
  let x := x ^^^ (x >>> 7)
  x ^^^ (x <<< 17)

/-- The loop at a height `n` below `MAX_HEIGHT`. -/
def grow : ℕ → UInt64 → ℕ → UInt64 × ℕ
  | 0, x, height => (xorshift x, height)
  | n + 1, x, height =>
    if xorshift x % BRANCHING = 0 then grow n (xorshift x) (height + 1) else (xorshift x, height)

/-- `SEED`, and the cell `RNG` of each thread. -/
structure Generators where
  seed : UInt64
  cells : List UInt64

namespace Generators

def start (threads : ℕ) : Generators := ⟨GOLDEN, List.replicate threads 0⟩

/-- `random_height` in the thread `i`. -/
def randomHeight (g : Generators) (i : ℕ) : Option (ℕ × Generators) := do
  let cell ← g.cells[i]?
  let (x, seed) := if cell = 0 then (g.seed ||| 1, g.seed + GOLDEN) else (cell, g.seed)
  let (x, height) := grow (MAX_HEIGHT - 1) x 1
  return (height, ⟨seed, g.cells.set i x⟩)

/-- The heights that the threads draw in turn. -/
def draws (g : Generators) : List ℕ → Option (List ℕ × Generators)
  | [] => some ([], g)
  | i :: is => do
    let (height, g) ← g.randomHeight i
    let (heights, g) ← g.draws is
    return (height :: heights, g)

end Generators

/-! ### The generator -/

/-- A word that a left shift maps to itself is 0. -/
theorem eq_zero_of_shiftLeft {w k : ℕ} (hk : 0 < k) {x : BitVec w} (h : x = x <<< k) : x = 0#w := by
  have hiter : ∀ n, x = x <<< (k * n) := by
    intro n
    induction n with
    | zero => simp
    | succ n ih => rw [Nat.mul_succ, BitVec.shiftLeft_add, ← ih, ← h]
  rw [hiter w]
  exact BitVec.shiftLeft_eq_zero (Nat.le_mul_of_pos_left w hk)

theorem eq_zero_of_shiftRight {w k : ℕ} (hk : 0 < k) {x : BitVec w} (h : x = x >>> k) :
    x = 0#w := by
  have hiter : ∀ n, x = x >>> (k * n) := by
    intro n
    induction n with
    | zero => simp
    | succ n ih => rw [Nat.mul_succ, BitVec.shiftRight_add, ← ih, ← h]
  rw [hiter w]
  exact BitVec.ushiftRight_eq_zero (Nat.le_mul_of_pos_left w hk)

theorem xor_shiftLeft_ne_zero {x k : UInt64} (hk : 0 < k.toBitVec.toNat % 64) (hx : x ≠ 0) :
    x ^^^ (x <<< k) ≠ 0 := by
  intro h
  apply hx
  have hb := congrArg UInt64.toBitVec h
  rw [UInt64.toBitVec_xor, UInt64.toBitVec_shiftLeft] at hb
  have he := eq_zero_of_shiftLeft (k := (k.toBitVec % 64).toNat) (by simpa using hk)
    (BitVec.xor_eq_zero_iff.mp hb)
  exact UInt64.toBitVec_inj.mp he

theorem xor_shiftRight_ne_zero {x k : UInt64} (hk : 0 < k.toBitVec.toNat % 64) (hx : x ≠ 0) :
    x ^^^ (x >>> k) ≠ 0 := by
  intro h
  apply hx
  have hb := congrArg UInt64.toBitVec h
  rw [UInt64.toBitVec_xor, UInt64.toBitVec_shiftRight] at hb
  have he := eq_zero_of_shiftRight (k := (k.toBitVec % 64).toNat) (by simpa using hk)
    (BitVec.xor_eq_zero_iff.mp hb)
  exact UInt64.toBitVec_inj.mp he

/-- The state of a thread does not become 0. -/
theorem xorshift_ne_zero {x : UInt64} (hx : x ≠ 0) : xorshift x ≠ 0 := by
  apply xor_shiftLeft_ne_zero (by decide)
  apply xor_shiftRight_ne_zero (by decide)
  exact xor_shiftLeft_ne_zero (by decide) hx

theorem grow_spec {x : UInt64} (hx : x ≠ 0) (n height : ℕ) :
    (grow n x height).1 ≠ 0 ∧ height ≤ (grow n x height).2 ∧ (grow n x height).2 ≤ height + n := by
  induction n generalizing x height with
  | zero => exact ⟨xorshift_ne_zero hx, le_rfl, le_rfl⟩
  | succ n ih =>
      rw [grow]
      split_ifs
      · obtain ⟨h0, hle, hle'⟩ := ih (xorshift_ne_zero hx) (height + 1)
        exact ⟨h0, by omega, by omega⟩
      · exact ⟨xorshift_ne_zero hx, le_rfl, by omega⟩

theorem or_one_ne_zero (x : UInt64) : x ||| 1 ≠ 0 := by
  intro h
  have hb := congrArg UInt64.toBitVec h
  have hbit := congrArg (fun w : BitVec 64 => w.getLsbD 0) hb
  simp at hbit

/-! ### The threads -/

namespace Generators

variable {g g' : Generators} {past : List ℕ} {i height : ℕ}

/-- The threads that have drawn are those of `past`, and each has taken one seed. -/
structure Drawn (g : Generators) (past : List ℕ) : Prop where
  cells : ∀ i cell, g.cells[i]? = some cell → (cell ≠ 0 ↔ i ∈ past)
  seed : g.seed = GOLDEN * (1 + UInt64.ofNat (g.cells.countP (· ≠ 0)))

theorem drawn_start (threads : ℕ) : Drawn (start threads) [] where
  cells i cell h := by
    obtain ⟨-, rfl⟩ := List.getElem?_eq_some_iff.mp h
    simp [start]
  seed := by simp [start, List.countP_replicate]

theorem draw_step (hd : g.Drawn past) (h : g.randomHeight i = some (height, g')) :
    g'.Drawn (past ++ [i]) ∧ 1 ≤ height ∧ height ≤ MAX_HEIGHT ∧
      g'.cells.length = g.cells.length := by
  rw [randomHeight] at h
  obtain ⟨cell, hcell, h⟩ := Option.bind_eq_some_iff.mp h
  obtain ⟨hi, hget⟩ := List.getElem?_eq_some_iff.mp hcell
  -- the state that the loop starts with, and what `SEED` is afterwards
  obtain ⟨x, seed, hx, hstart, hseed⟩ : ∃ x seed, x ≠ 0 ∧
      (if cell = 0 then (g.seed ||| 1, g.seed + GOLDEN) else (cell, g.seed)) = (x, seed) ∧
      seed = GOLDEN * (1 + UInt64.ofNat
        (g.cells.countP (· ≠ 0) - (if cell ≠ 0 then 1 else 0) + 1)) := by
    by_cases h0 : cell = 0
    · refine ⟨_, _, or_one_ne_zero g.seed, if_pos h0, ?_⟩
      have hone : GOLDEN * UInt64.ofNat 1 = GOLDEN := by decide
      rw [hd.seed, if_neg (not_not.mpr h0), Nat.sub_zero, UInt64.ofNat_add, ← UInt64.add_assoc]
      exact ((UInt64.mul_add ..).trans (congrArg _ hone)).symm
    · refine ⟨_, _, h0, if_neg h0, ?_⟩
      have hpos : 0 < g.cells.countP (· ≠ 0) :=
        List.countP_pos_iff.mpr ⟨cell, List.mem_of_getElem? hcell, by simpa using h0⟩
      rw [if_pos h0, Nat.sub_add_cancel hpos]
      exact hd.seed
  rw [hstart] at h
  dsimp only at h
  have hgrow := grow_spec hx (MAX_HEIGHT - 1) 1
  generalize grow (MAX_HEIGHT - 1) x 1 = drawn at h hgrow
  obtain ⟨y, n⟩ := drawn
  cases h
  obtain ⟨hne, hle, hle'⟩ := hgrow
  have hne : y ≠ 0 := hne
  refine ⟨⟨fun j c hj => ?_, ?_⟩, hle, hle', List.length_set⟩
  · by_cases hji : i = j
    · subst hji
      rw [List.getElem?_set_self hi, Option.some_inj] at hj
      subst hj
      simp [hne]
    · rw [List.getElem?_set_ne hji] at hj
      rw [hd.cells j c hj, List.mem_append, List.mem_singleton]
      exact (or_iff_left (Ne.symm hji)).symm
  · rw [hseed, List.countP_set hi, hget]
    simp [hne]

theorem draw_run (hd : g.Drawn past) {is heights : List ℕ}
    (h : g.draws is = some (heights, g')) :
    g'.Drawn (past ++ is) ∧ (∀ n ∈ heights, 1 ≤ n ∧ n ≤ MAX_HEIGHT) ∧
      g'.cells.length = g.cells.length := by
  induction is generalizing g past heights with
  | nil =>
      cases h
      exact ⟨by rwa [List.append_nil], fun n hn => absurd hn List.not_mem_nil, rfl⟩
  | cons i is ih =>
      rw [draws] at h
      obtain ⟨⟨n, g₁⟩, h₁, h⟩ := Option.bind_eq_some_iff.mp h
      obtain ⟨⟨ns, g₂⟩, h₂, h⟩ := Option.bind_eq_some_iff.mp h
      cases h
      obtain ⟨hd₁, hlow, hhigh, hlen₁⟩ := draw_step hd h₁
      obtain ⟨hd₂, hns, hlen₂⟩ := ih hd₁ h₂
      rw [List.append_assoc] at hd₂
      exact ⟨hd₂, List.forall_mem_cons.mpr ⟨⟨hlow, hhigh⟩, hns⟩, hlen₂.trans hlen₁⟩

/-- In every order in which threads insert, each height is one of a tower; a thread's state is 0
exactly until its first draw, and `SEED` has been advanced once for each thread that has drawn. -/
theorem heights {threads : ℕ} {is heights : List ℕ}
    (h : (start threads).draws is = some (heights, g)) :
    (∀ n ∈ heights, 1 ≤ n ∧ n ≤ MAX_HEIGHT) ∧
      (∀ i < threads, ∃ cell, g.cells[i]? = some cell ∧ (cell ≠ 0 ↔ i ∈ is)) ∧
      g.seed = GOLDEN * (1 + UInt64.ofNat (g.cells.countP (· ≠ 0))) := by
  obtain ⟨hd, hns, hlen⟩ := draw_run (drawn_start threads) h
  refine ⟨hns, fun i hi => ?_, hd.seed⟩
  have hlt : i < g.cells.length := by
    rw [hlen]
    simpa [start] using hi
  exact ⟨g.cells[i], List.getElem?_eq_getElem hlt, hd.cells i _ (List.getElem?_eq_getElem hlt)⟩

theorem heights_twoThreads :
    ∃ ns g, (start 3).draws [0, 1, 0] = some (ns, g) ∧ g.cells[2]? = some 0 ∧
      ∀ n ∈ ns, 1 ≤ n ∧ n ≤ MAX_HEIGHT := by
  have hcell : ((start 3).draws [0, 1, 0]).map (fun r => r.2.cells[2]?) = some (some 0) := by
    decide +kernel
  obtain ⟨⟨ns, g⟩, h, hcell⟩ := Option.map_eq_some_iff.mp hcell
  exact ⟨ns, g, h, hcell, (heights h).1⟩

end Generators

end SkipList

end LowDB
