import LowDB.Lib.Codec

/-! # Formats

A format relates byte strings to the values they stand for.  `Recognizes e p F` says that the parser `p`
is exactly a reader of the format `F`: it decodes the strings of `F`, fails with `e` inside one, and
every byte string begins with a string of `F` or stops inside one.  So nothing is left open about
what `p` does, on whatever bytes.

It is closed under sequencing (`Recognizes.bind`) and under functions of the value (`Recognizes.map`), like
the three properties that it joins. -/

namespace Codec

variable {ε α β : Type}

/-- Which byte strings stand for which values. -/
abbrev Format (α : Type) := List UInt8 → α → Prop

namespace Format

/-- Nothing at all, for one value. -/
def eps (a : α) : Format α := fun bs b => bs = [] ∧ b = a

/-- A string of `F` and then one of the format that its value calls for. -/
def seq (F : Format α) (G : α → Format β) : Format β := fun bs b =>
  ∃ as cs a, bs = as ++ cs ∧ F as a ∧ G a cs b

/-- The strings of `F`, for the images of their values. -/
def map (F : Format α) (f : α → β) : Format β := fun bs b => ∃ a, F bs a ∧ b = f a

/-- Any `n` bytes. -/
def bytes (n : ℕ) : Format (List UInt8) := fun bs as => bs = as ∧ as.length = n

/-- A big-endian number of `w` bytes. -/
def word (w : ℕ) : Format ℕ := fun bs n => bs = be w n ∧ n < 256 ^ w

end Format

/-- The parser reads the format: its strings and nothing else, with the error `e` where one is cut
short. -/
structure Recognizes (e : ε) (p : Parser ε α) (F : Format α) : Prop where
  decodes : ∀ bs a, F bs a → Decodes p bs a
  torn : ∀ bs a, F bs a → Torn e p bs
  covers : ∀ bs, (∃ as rest a, bs = as ++ rest ∧ F as a) ∨ ∃ as a, F as a ∧ bs <+: as ∧ bs ≠ as

namespace Recognizes

variable {e : ε} {p : Parser ε α} {f : α → Parser ε β} {F F' : Format α} {G : α → Format β}

theorem congr (h : Recognizes e p F) (hF : ∀ bs a, F bs a ↔ F' bs a) : Recognizes e p F' := by
  obtain rfl : F = F' := by
    funext bs a
    exact propext (hF bs a)
  exact h

/-- Some string belongs to the format. -/
theorem exists_string (h : Recognizes e p F) : ∃ as a, F as a := by
  rcases h.covers [] with ⟨as, _, a, -, hF⟩ | ⟨as, a, hF, -⟩
  · exact ⟨as, a, hF⟩
  · exact ⟨as, a, hF⟩

theorem pure (e : ε) (a : α) : Recognizes e (Pure.pure a) (Format.eps a) where
  decodes := by
    rintro _ _ ⟨rfl, rfl⟩
    exact .pure _
  torn := by
    rintro _ _ ⟨rfl, rfl⟩
    exact torn_nil e _
  covers bs := .inl ⟨[], bs, a, rfl, rfl, rfl⟩

theorem lift (e : ε) {r : Except ε α} (h : r = .ok a) : Recognizes e (lift r) (Format.eps a) where
  decodes := by
    rintro _ _ ⟨rfl, rfl⟩
    exact decodes_lift h
  torn := by
    rintro _ _ ⟨rfl, rfl⟩
    exact torn_nil e _
  covers bs := .inl ⟨[], bs, a, rfl, rfl, rfl⟩

theorem bind (hp : Recognizes e p F) (hf : ∀ a, Recognizes e (f a) (G a)) :
    Recognizes e (p >>= f) (F.seq G) where
  decodes := by
    rintro _ b ⟨as, cs, a, rfl, hF, hG⟩
    exact (hp.decodes as a hF).bind ((hf a).decodes cs b hG)
  torn := by
    rintro _ b ⟨as, cs, a, rfl, hF, hG⟩
    exact .bind (hp.decodes as a hF) (hp.torn as a hF) ((hf a).torn cs b hG)
  covers bs := by
    rcases hp.covers bs with ⟨as, rest, a, rfl, hF⟩ | ⟨as, a, hF, hpre, hne⟩
    · rcases (hf a).covers rest with ⟨cs, rest, b, rfl, hG⟩ | ⟨cs, b, hG, hpre, hne⟩
      · exact .inl ⟨as ++ cs, rest, b, by simp, as, cs, a, rfl, hF, hG⟩
      · refine .inr ⟨as ++ cs, b, ⟨as, cs, a, rfl, hF, hG⟩, ?_, fun h => hne ?_⟩
        · exact (List.prefix_append_right_inj as).mpr hpre
        · exact List.append_cancel_left h
    · -- cut inside the first part: any second part makes a whole of it
      obtain ⟨cs, b, hG⟩ := (hf a).exists_string
      refine .inr ⟨as ++ cs, b, ⟨as, cs, a, rfl, hF, hG⟩, hpre.trans (List.prefix_append as cs), ?_⟩
      rintro rfl
      have hlen := hpre.length_le
      rw [List.length_append] at hlen
      have hcs : cs = [] := List.length_eq_zero_iff.mp (by omega)
      exact hne (by rw [hcs, List.append_nil])

theorem map (h : Recognizes e p F) (f : α → β) :
    Recognizes e (p >>= fun a => Pure.pure (f a)) (F.map f) := by
  refine (h.bind fun a => pure e (f a)).congr fun bs b => ?_
  constructor
  · rintro ⟨as, _, a, rfl, hF, rfl, rfl⟩
    rw [List.append_nil]
    exact ⟨a, hF, rfl⟩
  · rintro ⟨a, hF, rfl⟩
    exact ⟨bs, [], a, (List.append_nil bs).symm, hF, rfl, rfl⟩

theorem take (e : ε) (n : ℕ) : Recognizes e (take e n) (Format.bytes n) where
  decodes := by
    rintro _ as ⟨rfl, rfl⟩
    exact decodes_take e _
  torn := by
    rintro _ as ⟨rfl, rfl⟩
    exact torn_take e _
  covers bs := by
    by_cases h : n ≤ bs.length
    · exact .inl ⟨bs.take n, bs.drop n, _, (List.take_append_drop n bs).symm, rfl, by simp [h]⟩
    · refine .inr ⟨bs ++ List.replicate (n - bs.length) 0, _, ⟨rfl, ?_⟩, List.prefix_append _ _, ?_⟩
      · simp
        omega
      · intro he
        have hl := congrArg List.length he
        simp at hl
        omega

theorem beNat (e : ε) (w : ℕ) : Recognizes e (beNat e w) (Format.word w) := by
  refine ((take e w).map nat).congr fun bs n => ?_
  constructor
  · rintro ⟨_, ⟨rfl, rfl⟩, rfl⟩
    exact ⟨(be_nat bs).symm, nat_lt bs⟩
  · rintro ⟨rfl, hn⟩
    refine ⟨be w n, ⟨rfl, length_be w n⟩, ?_⟩
    rw [nat_be_mod, Nat.mod_eq_of_lt hn]

end Recognizes

end Codec
