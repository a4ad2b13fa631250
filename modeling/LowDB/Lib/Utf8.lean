import Mathlib.Data.List.Basic
import Mathlib.Tactic.Common

/-! # UTF-8 byte strings

A byte-at-a-time decoder for the UTF-8 syntax, and the two things a reader of untrusted bytes
does with it: accept a byte string as text (`Valid`), or turn it into text anyway by replacing
every maximal ill-formed piece by U+FFFD (`lossy`).

The replacement character takes three bytes and an ill-formed piece at most three, so `lossy`
never shortens its input (`length_le_lossy`); on valid input it is the identity
(`lossy_of_valid`), and its output is always valid (`valid_lossy`). -/

namespace Utf8

/-- Where the decoder stands between two bytes: at a character boundary, or inside a character
with `n + 1` continuation bytes to come, the next one between `lo` and `hi`. -/
inductive State where
  | start
  | more (n : ℕ) (lo hi : UInt8)
deriving DecidableEq, Repr

/-- The state after the first byte of a character; `none` for a byte no character starts with. -/
def lead (b : UInt8) : Option State :=
  if b < 0x80 then some .start
  else if 0xC2 ≤ b ∧ b ≤ 0xDF then some (.more 0 0x80 0xBF)
  else if b = 0xE0 then some (.more 1 0xA0 0xBF)
  else if b = 0xED then some (.more 1 0x80 0x9F)
  else if 0xE1 ≤ b ∧ b ≤ 0xEF then some (.more 1 0x80 0xBF)
  else if b = 0xF0 then some (.more 2 0x90 0xBF)
  else if 0xF1 ≤ b ∧ b ≤ 0xF3 then some (.more 2 0x80 0xBF)
  else if b = 0xF4 then some (.more 2 0x80 0x8F)
  else none

/-- `n` unrestricted continuation bytes to come. -/
def tail : ℕ → State
  | 0 => .start
  | n + 1 => .more n 0x80 0xBF

/-- One byte. -/
def next : State → UInt8 → Option State
  | .start, b => lead b
  | .more n lo hi, b => if lo ≤ b ∧ b ≤ hi then some (tail n) else none

/-- The state after a byte string, `none` once a byte is refused. -/
def run : State → List UInt8 → Option State
  | q, [] => some q
  | q, b :: bs => (next q b).bind (run · bs)

/-- The byte string is a sequence of whole characters. -/
def Valid (bs : List UInt8) : Prop := run .start bs = some .start

instance (bs : List UInt8) : Decidable (Valid bs) := by unfold Valid; infer_instance

/-- U+FFFD. -/
def replacement : List UInt8 := [0xEF, 0xBF, 0xBD]

/-- Lossy decoding from state `q`, with the bytes `p` of an unfinished character held back. -/
def lossyFrom : State → List UInt8 → List UInt8 → List UInt8
  | _, p, [] => if p = [] then [] else replacement
  | q, p, b :: bs =>
    match next q b with
    | some .start => p ++ b :: lossyFrom .start [] bs
    | some q' => lossyFrom q' (p ++ [b]) bs
    | none =>
      if p = [] then replacement ++ lossyFrom .start [] bs
      else replacement ++
        -- the piece `p` ends here, and `b` is looked at again as a first byte
        match lead b with
        | some .start => b :: lossyFrom .start [] bs
        | some q' => lossyFrom q' [b] bs
        | none => replacement ++ lossyFrom .start [] bs

/-- The text read from arbitrary bytes. -/
def lossy (bs : List UInt8) : List UInt8 := lossyFrom .start [] bs

/-! ### Runs of the decoder -/

theorem run_append (q : State) (as bs : List UInt8) :
    run q (as ++ bs) = (run q as).bind (run · bs) := by
  induction as generalizing q with
  | nil => rfl
  | cons a as ih =>
      simp only [List.cons_append, run]
      cases next q a with
      | none => rfl
      | some q' => exact ih q'

theorem Valid.append {as bs : List UInt8} (ha : Valid as) (hb : Valid bs) : Valid (as ++ bs) := by
  unfold Valid at *
  rw [run_append, ha]
  exact hb

theorem valid_nil : Valid [] := rfl

theorem valid_replacement : Valid replacement := by decide

/-- Bytes below 128 are characters on their own. -/
theorem valid_of_ascii {bs : List UInt8} (h : ∀ b ∈ bs, b < 0x80) : Valid bs := by
  induction bs with
  | nil => rfl
  | cons b bs ih =>
      have hb : next .start b = some .start := by
        simp [next, lead, h b (List.mem_cons_self)]
      have ht := ih (fun c hc => h c (List.mem_cons_of_mem _ hc))
      unfold Valid at *
      rw [run, hb]
      exact ht

/-! ### Lossy decoding -/

theorem lossyFrom_of_run {q : State} {p bs : List UInt8} (hp : q = .start → p = [])
    (h : run q bs = some .start) : lossyFrom q p bs = p ++ bs := by
  induction bs generalizing q p with
  | nil =>
      simp only [run, Option.some.injEq] at h
      simp [lossyFrom, hp h]
  | cons b bs ih =>
      rw [run] at h
      cases hn : next q b with
      | none => rw [hn] at h; cases h
      | some q' =>
          rw [hn] at h
          have h' : run q' bs = some .start := h
          cases q' with
          | start =>
              simp only [lossyFrom, hn]
              rw [ih (fun _ => rfl) h']
              rfl
          | more n lo hi =>
              simp only [lossyFrom, hn]
              rw [ih (fun e => by cases e) h']
              simp

theorem lossy_of_valid {bs : List UInt8} (h : Valid bs) : lossy bs = bs :=
  lossyFrom_of_run (fun _ => rfl) h

theorem valid_cons_of_lead {b : UInt8} {bs : List UInt8} (hb : lead b = some .start)
    (h : Valid bs) : Valid (b :: bs) := by
  unfold Valid at *
  rw [run, next, hb]
  exact h

theorem valid_lossyFrom {q : State} {p bs : List UInt8} (h : run .start p = some q) :
    Valid (lossyFrom q p bs) := by
  induction bs generalizing q p with
  | nil =>
      unfold lossyFrom
      split_ifs
      · exact valid_nil
      · exact valid_replacement
  | cons b bs ih =>
      have hnil : Valid (lossyFrom .start [] bs) := ih rfl
      have hbad : Valid (replacement ++ lossyFrom .start [] bs) := valid_replacement.append hnil
      unfold lossyFrom
      cases hn : next q b with
      | none =>
          dsimp only
          split_ifs
          · exact hbad
          · apply valid_replacement.append
            cases hl : lead b with
            | none => exact hbad
            | some q' =>
                cases q' with
                | start => exact valid_cons_of_lead hl hnil
                | more n lo hi => exact ih (by simp [run, next, hl])
      | some q' =>
          have hrun : run .start (p ++ [b]) = some q' := by
            rw [run_append, h]
            simp [run, hn]
          cases q' with
          | start =>
              have e : p ++ b :: lossyFrom .start [] bs = (p ++ [b]) ++ lossyFrom .start [] bs := by
                simp
              dsimp only
              rw [e]
              exact Valid.append hrun hnil
          | more n lo hi => exact ih hrun

theorem valid_lossy (bs : List UInt8) : Valid (lossy bs) := valid_lossyFrom rfl

/-- Continuation bytes still to come. -/
def owed : State → ℕ
  | .start => 0
  | .more n _ _ => n + 1

theorem owed_lead {b : UInt8} {q : State} (h : lead b = some q) : owed q ≤ 3 := by
  unfold lead at h
  split_ifs at h <;> cases h <;> simp [owed]

theorem owed_next_more {n : ℕ} {lo hi b : UInt8} {q : State}
    (h : next (.more n lo hi) b = some q) : owed q = n := by
  simp only [next] at h
  split_ifs at h
  cases h
  cases n <;> rfl

/-- A held-back piece and what it still waits for are one character, hence at most four bytes. -/
theorem owed_next {q q' : State} {p : List UInt8} {b : UInt8} (hs : q = .start → p = [])
    (hp : p.length + owed q ≤ 4) (h : next q b = some q') : (p ++ [b]).length + owed q' ≤ 4 := by
  cases q with
  | start =>
      have := owed_lead h
      simp [hs rfl]
      omega
  | more n lo hi =>
      rw [owed_next_more h]
      simp [owed] at hp ⊢
      omega

theorem length_le_lossyFrom {q : State} {p bs : List UInt8} (hs : q = .start → p = [])
    (hp : p.length + owed q ≤ 4) : p.length + bs.length ≤ (lossyFrom q p bs).length := by
  induction bs generalizing q p with
  | nil =>
      unfold lossyFrom
      split_ifs with h
      · simp [h]
      · cases q with
        | start => exact absurd (hs rfl) h
        | more n lo hi => simp [owed, replacement] at hp ⊢; omega
  | cons b bs ih =>
      have hnil : bs.length ≤ (lossyFrom .start [] bs).length := by
        simpa using @ih .start [] (fun _ => rfl) (by simp [owed])
      unfold lossyFrom
      cases hn : next q b with
      | none =>
          dsimp only
          split_ifs with h
          · simp [h, replacement]; omega
          · have hp3 : p.length ≤ 3 := by
              cases q with
              | start => simp [hs rfl]
              | more n lo hi => simp [owed] at hp; omega
            cases hl : lead b with
            | none => simp [replacement]; omega
            | some q' =>
                cases q' with
                | start => simp [replacement]; omega
                | more n lo hi =>
                    have := owed_lead hl
                    have := @ih (.more n lo hi) [b] (fun e => by cases e)
                      (by simp only [List.length_singleton]; omega)
                    simp [replacement] at this ⊢
                    omega
      | some q' =>
          have hq := owed_next hs hp hn
          cases q' with
          | start => simp; omega
          | more n lo hi =>
              have := @ih _ (p ++ [b]) (fun e => by cases e) hq
              simp at this ⊢
              omega

/-- Lossy decoding never shortens. -/
theorem length_le_lossy (bs : List UInt8) : bs.length ≤ (lossy bs).length := by
  have h := @length_le_lossyFrom .start [] bs (fun _ => rfl) (by simp [owed])
  rw [List.length_nil, Nat.zero_add] at h
  exact h

end Utf8
