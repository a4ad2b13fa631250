import Mathlib.Data.List.Basic
import Mathlib.Data.List.Induction
import Mathlib.Tactic.Common
import Mathlib.Tactic.Ring

/-! # Byte codecs

Big-endian integers (`be`, `nat`) and parsers that consume a byte string from the front and can
fail, `Parser ε α`.  Three properties of a parser on the encoding `bs` of a value `a`:

* `Decodes p bs a`: in front of any continuation, `p` reads exactly `bs` and returns `a`;
* `Torn e p bs`: on every proper prefix of `bs`, `p` fails with `e`;
* `Grows p size`: whatever `p` reads, the value it returns is at least as long, as measured by
  `size`, as the bytes it took.

Each is closed under sequencing (`Decodes.bind`, `Torn.bind`), so the properties of a record
follow from those of its fields. -/

namespace Codec

/-! ### Big-endian integers -/

/-- The `w` low bytes of `n`, most significant first. -/
def be : ℕ → ℕ → List UInt8
  | 0, _ => []
  | w + 1, n => be w (n / 256) ++ [UInt8.ofNat n]

/-- The number a big-endian byte string denotes. -/
def nat (bs : List UInt8) : ℕ := bs.foldl (fun n b => n * 256 + b.toNat) 0

@[simp] theorem length_be (w n : ℕ) : (be w n).length = w := by
  induction w generalizing n with
  | zero => rfl
  | succ w ih => simp [be, ih]

theorem nat_append_singleton (bs : List UInt8) (b : UInt8) :
    nat (bs ++ [b]) = nat bs * 256 + b.toNat := by
  simp [nat, List.foldl_append]

theorem nat_be_mod (w n : ℕ) : nat (be w n) = n % 256 ^ w := by
  induction w generalizing n with
  | zero => simp [be, nat, Nat.mod_one]
  | succ w ih =>
      have hb : (UInt8.ofNat n).toNat = n % 256 := UInt8.toNat_ofNat'
      rw [be, nat_append_singleton, ih, hb, Nat.pow_succ', Nat.mod_mul]
      ring

theorem nat_lt (bs : List UInt8) : nat bs < 256 ^ bs.length := by
  induction bs using List.reverseRecOn with
  | nil => exact Nat.one_pos
  | append_singleton bs b ih =>
      have hb := b.toNat_lt
      rw [nat_append_singleton, List.length_append, List.length_singleton, Nat.pow_succ]
      omega

theorem be_nat (bs : List UInt8) : be bs.length (nat bs) = bs := by
  induction bs using List.reverseRecOn with
  | nil => rfl
  | append_singleton bs b ih =>
      have hb := b.toNat_lt
      have hdiv : (nat bs * 256 + b.toNat) / 256 = nat bs := by omega
      have hlow : UInt8.ofNat (nat bs * 256 + b.toNat) = b := by
        rw [← UInt8.toNat_inj, UInt8.toNat_ofNat']
        omega
      rw [List.length_append, List.length_singleton, nat_append_singleton, be, hdiv, hlow, ih]

/-! ### Parsers -/

variable {ε α β : Type}

/-- A parser takes a value from the front of a byte string or fails with an error. -/
abbrev Parser (ε α : Type) := StateT (List UInt8) (Except ε) α

/-- The next `n` bytes, or the error `e` if there are fewer. -/
def take (e : ε) (n : ℕ) : Parser ε (List UInt8) := fun bs =>
  if n ≤ bs.length then .ok (bs.take n, bs.drop n) else .error e

/-- A big-endian integer of `w` bytes. -/
def beNat (e : ε) (w : ℕ) : Parser ε ℕ := do
  let bs ← take e w
  return nat bs

/-- A check on values already read, as a parser that takes nothing. -/
def lift (r : Except ε α) : Parser ε α := fun bs => r.map (·, bs)

theorem bind_apply (p : Parser ε α) (f : α → Parser ε β) (bs : List UInt8) :
    (p >>= f) bs = match p bs with
      | .ok (a, rest) => f a rest
      | .error e => .error e := by
  show StateT.bind p f bs = _
  unfold StateT.bind
  cases p bs <;> rfl

@[simp] theorem pure_apply (a : α) (bs : List UInt8) :
    (pure a : Parser ε α) bs = .ok (a, bs) := rfl

@[simp] theorem throw_apply (e : ε) (bs : List UInt8) :
    (throw e : Parser ε α) bs = .error e := rfl

/-- A sequence of parsers that succeeds is two parsers that succeed. -/
theorem bind_eq_ok {p : Parser ε α} {f : α → Parser ε β} {bs : List UInt8} {b : β}
    {rest : List UInt8} (h : (p >>= f) bs = .ok (b, rest)) :
    ∃ a mid, p bs = .ok (a, mid) ∧ f a mid = .ok (b, rest) := by
  rw [bind_apply] at h
  cases hp : p bs with
  | error e => rw [hp] at h; cases h
  | ok r => rw [hp] at h; exact ⟨r.1, r.2, rfl, h⟩

/-- In front of anything, `p` reads exactly `bs` and returns `a`. -/
def Decodes (p : Parser ε α) (bs : List UInt8) (a : α) : Prop :=
  ∀ rest, p (bs ++ rest) = .ok (a, rest)

/-- On every proper prefix of `bs`, `p` fails with `e`. -/
def Torn (e : ε) (p : Parser ε α) (bs : List UInt8) : Prop :=
  ∀ pre, pre <+: bs → pre ≠ bs → p pre = .error e

theorem Decodes.pure (a : α) : Decodes (pure a : Parser ε α) [] a := fun _ => rfl

theorem Decodes.bind {p : Parser ε α} {f : α → Parser ε β} {as bs : List UInt8} {a : α} {b : β}
    (hp : Decodes p as a) (hf : Decodes (f a) bs b) : Decodes (p >>= f) (as ++ bs) b := by
  intro rest
  rw [bind_apply, List.append_assoc, hp]
  exact hf rest

theorem Decodes.map {p : Parser ε α} {as : List UInt8} {a : α} (hp : Decodes p as a) (g : α → β) :
    Decodes (p >>= fun x => Pure.pure (g x)) as (g a) := by
  have h := hp.bind (f := fun x => Pure.pure (g x)) (Decodes.pure (g a))
  rwa [List.append_nil] at h

/-- A prefix of a concatenation stops inside the first part or reaches into the second. -/
theorem prefix_append_cases {γ : Type} {as bs pre : List γ} (h : pre <+: as ++ bs) :
    (pre <+: as ∧ pre ≠ as) ∨ ∃ pre', pre = as ++ pre' ∧ pre' <+: bs := by
  rcases List.prefix_or_prefix_of_prefix h (List.prefix_append as bs) with hp | ⟨pre', rfl⟩
  · by_cases he : pre = as
    · exact .inr ⟨[], by simp [he], List.nil_prefix⟩
    · exact .inl ⟨hp, he⟩
  · exact .inr ⟨pre', rfl, (List.prefix_append_right_inj as).mp h⟩

theorem Torn.bind {e : ε} {p : Parser ε α} {f : α → Parser ε β} {as bs : List UInt8} {a : α}
    (hd : Decodes p as a) (hp : Torn e p as) (hf : Torn e (f a) bs) :
    Torn e (p >>= f) (as ++ bs) := by
  intro pre hpre hne
  rw [bind_apply]
  rcases prefix_append_cases hpre with ⟨h, hne'⟩ | ⟨pre', rfl, h⟩
  · rw [hp pre h hne']
  · rw [hd pre']
    exact hf pre' h (fun he => hne (by rw [he]))

theorem decodes_lift {r : Except ε α} {a : α} (h : r = .ok a) : Decodes (lift r) [] a := by
  intro rest
  rw [h]
  rfl

/-- The empty string has no proper prefix. -/
theorem torn_nil (e : ε) (p : Parser ε α) : Torn e p [] :=
  fun _ h hne => absurd (List.prefix_nil.mp h) hne

theorem Torn.map {e : ε} {p : Parser ε α} {as : List UInt8} {a : α} (hd : Decodes p as a)
    (hp : Torn e p as) (g : α → β) : Torn e (p >>= fun x => Pure.pure (g x)) as := by
  have h := Torn.bind (f := fun x => Pure.pure (g x)) hd hp (torn_nil e _)
  rwa [List.append_nil] at h

/-! ### Fields -/

theorem take_append (e : ε) (bs rest : List UInt8) :
    take e bs.length (bs ++ rest) = .ok (bs, rest) := by
  simp [take]

theorem decodes_take (e : ε) (bs : List UInt8) : Decodes (take e bs.length) bs bs :=
  take_append e bs

theorem torn_take (e : ε) (bs : List UInt8) : Torn e (take e bs.length) bs := by
  intro pre hpre hne
  have hlt : pre.length < bs.length :=
    lt_of_le_of_ne hpre.length_le (fun h => hne (hpre.eq_of_length h))
  rw [take, if_neg (by omega)]

/-- A field keeps of a number what its width holds. -/
theorem decodes_beNat_mod (e : ε) (w n : ℕ) : Decodes (beNat e w) (be w n) (n % 256 ^ w) := by
  have hd := decodes_take e (be w n)
  rw [length_be] at hd
  have hm := hd.map nat
  rwa [nat_be_mod] at hm

theorem decodes_beNat (e : ε) {w n : ℕ} (h : n < 256 ^ w) : Decodes (beNat e w) (be w n) n := by
  have hd := decodes_beNat_mod e w n
  rwa [Nat.mod_eq_of_lt h] at hd

theorem torn_beNat (e : ε) (w n : ℕ) : Torn e (beNat e w) (be w n) := by
  have hd := decodes_take e (be w n)
  have ht := torn_take e (be w n)
  rw [length_be] at hd ht
  exact ht.map hd nat

theorem take_eq_ok {e : ε} {n : ℕ} {bs as rest : List UInt8}
    (h : take e n bs = .ok (as, rest)) : bs = as ++ rest ∧ as.length = n := by
  unfold take at h
  split_ifs at h with hn
  cases h
  exact ⟨(List.take_append_drop n bs).symm, by simp [hn]⟩

theorem beNat_eq_ok {e : ε} {w n : ℕ} {bs rest : List UInt8}
    (h : beNat e w bs = .ok (n, rest)) : ∃ as, bs = as ++ rest ∧ as.length = w ∧ nat as = n := by
  obtain ⟨as, mid, ht, hp⟩ := bind_eq_ok h
  cases hp
  obtain ⟨hb, hl⟩ := take_eq_ok ht
  exact ⟨as, hb, hl, rfl⟩

theorem length_of_beNat {e : ε} {w n : ℕ} {bs rest : List UInt8}
    (h : beNat e w bs = .ok (n, rest)) : bs.length = w + rest.length := by
  obtain ⟨as, rfl, hl, _⟩ := beNat_eq_ok h
  simp [hl]

/-! ### Length of the rest -/

/-- `p` never gives back more than it was given. -/
def Shrinks (p : Parser ε α) : Prop :=
  ∀ bs a rest, p bs = .ok (a, rest) → rest.length ≤ bs.length

theorem Shrinks.bind {p : Parser ε α} {f : α → Parser ε β} (hp : Shrinks p)
    (hf : ∀ a, Shrinks (f a)) : Shrinks (p >>= f) := by
  intro bs b rest h
  obtain ⟨a, mid, h₁, h₂⟩ := bind_eq_ok h
  exact (hf a _ _ _ h₂).trans (hp _ _ _ h₁)

theorem shrinks_pure (a : α) : Shrinks (pure a : Parser ε α) := by
  intro bs b rest h
  cases h
  exact le_rfl

theorem shrinks_throw (e : ε) : Shrinks (throw e : Parser ε α) := by
  intro bs b rest h
  cases h

theorem shrinks_take (e : ε) (n : ℕ) : Shrinks (take e n) := by
  intro bs as rest h
  obtain ⟨rfl, _⟩ := take_eq_ok h
  simp

theorem shrinks_lift (r : Except ε α) : Shrinks (lift r) := by
  intro bs a rest h
  unfold lift at h
  cases r with
  | error e => cases h
  | ok a' => cases h; exact le_rfl

theorem shrinks_beNat (e : ε) (w : ℕ) : Shrinks (beNat e w) :=
  (shrinks_take e w).bind fun _ => shrinks_pure _

/-! ### Growth -/

/-- What `p` returns measures at least the bytes it took. -/
def Grows (p : Parser ε α) (size : α → ℕ) : Prop :=
  ∀ bs a rest, p bs = .ok (a, rest) → bs.length ≤ size a + rest.length

end Codec
