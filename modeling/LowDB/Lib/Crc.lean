import Mathlib.Data.LawfulXor.Basic
import Mathlib.Data.Nat.Bitwise
import Mathlib.Tactic.Common

/-! # Cyclic redundancy checks

A reflected CRC with the polynomial `p`, one bit of the register at a time (`shift`) and one byte of the
input at a time (`byte`), on registers of `n + 1` bits.  A shift is linear in exclusive or
(`shift_xor`) and loses nothing when the top bit of the polynomial is set (`shift_eq_zero`).  So two
strings that differ in one place of at most `n + 1` bits leave different registers
(`run_ne_of_burst`): a burst that fits the register is always detected. -/

namespace Crc

/-- One bit of the reflected register. -/
def shift (p c : ℕ) : ℕ := if c % 2 = 1 then (c / 2) ^^^ p else c / 2

def byte (p c : ℕ) (b : UInt8) : ℕ := Nat.repeat (shift p) 8 (c ^^^ b.toNat)

/-- The register after the bytes. -/
def run (p : ℕ) : ℕ → List UInt8 → ℕ := List.foldl (byte p)

/-- The bytes as a number, the first one lowest. -/
def le : List UInt8 → ℕ
  | [] => 0
  | b :: bs => b.toNat ^^^ (2 ^ 8 * le bs)

variable {p n k a b c d : ℕ} {bs bs' pre post : List UInt8}

/-! ### Shifts -/

theorem shift_xor (p a b : ℕ) : shift p (a ^^^ b) = shift p a ^^^ shift p b := by
  unfold shift
  rw [Nat.xor_div_two]
  by_cases ha : a % 2 = 1
  · by_cases hb : b % 2 = 1
    · rw [if_neg (by rw [Nat.xor_mod_two_eq_one]; tauto), if_pos ha, if_pos hb]
      rw [Nat.xor_assoc, Nat.xor_comm p, Nat.xor_assoc, Nat.xor_self, Nat.xor_zero]
    · rw [if_pos (by rw [Nat.xor_mod_two_eq_one]; tauto), if_pos ha, if_neg hb]
      rw [Nat.xor_assoc, Nat.xor_comm _ p, ← Nat.xor_assoc]
  · by_cases hb : b % 2 = 1
    · rw [if_pos (by rw [Nat.xor_mod_two_eq_one]; tauto), if_neg ha, if_pos hb, Nat.xor_assoc]
    · rw [if_neg (by rw [Nat.xor_mod_two_eq_one]; tauto), if_neg ha, if_neg hb]

theorem shift_double (p a : ℕ) : shift p (2 * a) = a := by
  rw [shift, if_neg (by omega)]
  omega

theorem shift_lt (hp : p < 2 ^ n) (hc : c < 2 ^ n) : shift p c < 2 ^ n := by
  unfold shift
  split_ifs
  · exact Nat.xor_lt_two_pow (by omega) hp
  · omega

/-- Only the empty register is shifted to the empty one. -/
theorem shift_eq_zero (hp : 2 ^ n ≤ p) (hc : c < 2 ^ (n + 1)) (h : shift p c = 0) : c = 0 := by
  unfold shift at h
  split_ifs at h with hodd
  · have he := Nat.xor_eq_zero_iff.mp h
    omega
  · omega

theorem repeat_xor (p k a b : ℕ) :
    Nat.repeat (shift p) k (a ^^^ b) = Nat.repeat (shift p) k a ^^^ Nat.repeat (shift p) k b := by
  induction k with
  | zero => rfl
  | succ k ih => rw [Nat.repeat, ih, shift_xor, Nat.repeat, Nat.repeat]

theorem repeat_lt (hp : p < 2 ^ n) (hc : c < 2 ^ n) (k : ℕ) : Nat.repeat (shift p) k c < 2 ^ n := by
  induction k with
  | zero => exact hc
  | succ k ih => exact shift_lt hp ih

theorem repeat_eq_zero (hp : 2 ^ n ≤ p) (hp' : p < 2 ^ (n + 1)) (hc : c < 2 ^ (n + 1))
    (h : Nat.repeat (shift p) k c = 0) : c = 0 := by
  induction k with
  | zero => exact h
  | succ k ih => exact ih (shift_eq_zero hp (repeat_lt hp' hc k) h)

theorem repeat_add (f : ℕ → ℕ) (j k a : ℕ) : Nat.repeat f (j + k) a = Nat.repeat f j (Nat.repeat f k a) := by
  induction j with
  | zero => rw [Nat.zero_add, Nat.repeat]
  | succ j ih => rw [Nat.add_right_comm, Nat.repeat, ih, Nat.repeat]

/-- As many shifts as there are zeros at the low end only move the rest down. -/
theorem repeat_shifted (p k a : ℕ) : Nat.repeat (shift p) k (2 ^ k * a) = a := by
  induction k generalizing a with
  | zero => rw [Nat.repeat, Nat.pow_zero, Nat.one_mul]
  | succ k ih => rw [Nat.repeat, Nat.pow_succ, Nat.mul_assoc, ih, shift_double]

/-! ### Bytes -/

/-- Bytes are taken in as one number. -/
theorem run_eq (p c : ℕ) (bs : List UInt8) :
    run p c bs = Nat.repeat (shift p) (8 * bs.length) (c ^^^ le bs) := by
  induction bs generalizing c with
  | nil => rw [le, Nat.xor_zero]; rfl
  | cons b bs ih =>
      have hcons : run p c (b :: bs) = run p (byte p c b) bs := rfl
      have hle : le bs = Nat.repeat (shift p) 8 (2 ^ 8 * le bs) := (repeat_shifted p 8 _).symm
      rw [hcons, ih, byte]
      nth_rewrite 1 [hle]
      rw [← repeat_xor, ← repeat_add, Nat.xor_assoc, le, List.length_cons, Nat.mul_succ]

theorem run_append (p c : ℕ) (bs bs' : List UInt8) : run p c (bs ++ bs') = run p (run p c bs) bs' :=
  List.foldl_append

theorem le_lt (bs : List UInt8) : le bs < 2 ^ (8 * bs.length) := by
  induction bs with
  | nil => decide
  | cons b bs ih =>
      have hb := b.toNat_lt
      rw [le, List.length_cons]
      apply Nat.xor_lt_two_pow
      · exact hb.trans_le (Nat.pow_le_pow_right (by decide) (by omega))
      · rw [Nat.mul_succ, Nat.add_comm, Nat.pow_add]
        exact Nat.mul_lt_mul_of_pos_left ih (by decide)

theorem le_inj (hlen : bs.length = bs'.length) (h : le bs = le bs') : bs = bs' := by
  induction bs generalizing bs' with
  | nil => exact (List.length_eq_zero_iff.mp hlen.symm).symm
  | cons b bs ih =>
      obtain ⟨b', bs', rfl⟩ : ∃ b' t, bs' = b' :: t := List.exists_cons_of_length_eq_add_one hlen.symm
      have hb := b.toNat_lt
      have hb' := b'.toNat_lt
      have hlow := congrArg (fun x => x % 2 ^ 8) h
      have hhigh := congrArg (fun x => x / 2 ^ 8) h
      simp only [le, Nat.xor_mod_two_pow, Nat.xor_div_two_pow, Nat.mul_mod_right, Nat.xor_zero] at hlow hhigh
      rw [Nat.mod_eq_of_lt hb, Nat.mod_eq_of_lt hb'] at hlow
      rw [Nat.div_eq_of_lt hb, Nat.div_eq_of_lt hb', Nat.zero_xor, Nat.zero_xor,
        Nat.mul_div_cancel_left _ (by decide), Nat.mul_div_cancel_left _ (by decide)] at hhigh
      rw [UInt8.toNat_inj.mp hlow, ih (Nat.succ.inj hlen) hhigh]

/-! ### Detection -/

section detection
variable (hp : 2 ^ n ≤ p) (hp' : p < 2 ^ (n + 1))
include hp hp'

theorem repeat_inj (ha : a < 2 ^ (n + 1)) (hb : b < 2 ^ (n + 1))
    (h : Nat.repeat (shift p) k a = Nat.repeat (shift p) k b) : a = b := by
  have hzero : Nat.repeat (shift p) k (a ^^^ b) = 0 := by rw [repeat_xor, h, Nat.xor_self]
  exact Nat.xor_eq_zero_iff.mp (repeat_eq_zero hp hp' (Nat.xor_lt_two_pow ha hb) hzero)

omit hp in
theorem run_lt (hn : 8 ≤ n + 1) (hc : c < 2 ^ (n + 1)) (bs : List UInt8) : run p c bs < 2 ^ (n + 1) := by
  induction bs generalizing c with
  | nil => exact hc
  | cons b bs ih =>
      have hb : b.toNat < 2 ^ (n + 1) := b.toNat_lt.trans_le (Nat.pow_le_pow_right (by decide) hn)
      exact ih (repeat_lt hp' (Nat.xor_lt_two_pow hc hb) 8)

/-- Registers that differ before the same bytes differ after them. -/
theorem run_inj (hc : c < 2 ^ (n + 1)) (hd : d < 2 ^ (n + 1)) (h : run p c bs = run p d bs) :
    c = d := by
  rw [run_eq, run_eq, repeat_xor, repeat_xor] at h
  exact repeat_inj hp hp' hc hd ((xor_left_involutive _).injective h)

/-- **Bursts**: strings that differ in one place of at most `n + 1` bits leave different registers. -/
theorem run_ne_of_burst (hn : 8 ≤ n + 1) (hc : c < 2 ^ (n + 1)) (hlen : bs.length = bs'.length)
    (hshort : 8 * bs.length ≤ n + 1) (hne : bs ≠ bs') :
    run p c (pre ++ (bs ++ post)) ≠ run p c (pre ++ (bs' ++ post)) := by
  intro h
  have hpre := run_lt hp' hn hc pre
  rw [run_append, run_append, run_append, run_append] at h
  have hw := run_inj hp hp' (run_lt hp' hn hpre bs) (run_lt hp' hn hpre bs') h
  have hfit : ∀ w : List UInt8, w.length = bs.length → run p c pre ^^^ le w < 2 ^ (n + 1) := by
    intro w hw
    refine Nat.xor_lt_two_pow hpre ((le_lt w).trans_le (Nat.pow_le_pow_right (by decide) ?_))
    rwa [hw]
  rw [run_eq, run_eq p _ bs', ← hlen] at hw
  have hle := repeat_inj hp hp' (hfit bs rfl) (hfit bs' hlen.symm) hw
  exact hne (le_inj hlen ((xor_right_involutive _).injective hle))

end detection

end Crc
