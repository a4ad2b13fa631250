import LowDB.Common

/-! # The entry layout shared by the log and the tables

Both on-disk formats write a key as `len u16, bytes, seq u64` and a value as `len u16, bytes`,
with length 0 for a deletion.  Their readers differ in the error they report at the end of the
input and in how they turn the bytes of a string field into text, so both are parameters here:
`e` is the error and `str` the conversion. -/

namespace LowDB

open Codec

/-! ### Writing -/

def keyBytes (k : Key) : Bytes := be 2 k.user.len ++ (k.user.bytes ++ be 8 k.seq.toNat)

def valueBytes : Value → Bytes
  | .set s => be 2 s.len ++ s.bytes
  | .delete => be 2 0

def entryBytes (e : Entry) : Bytes := keyBytes e.1 ++ valueBytes e.2

/-- The length of the user key fits its `u16` field. -/
def Key.Fits (k : Key) : Prop := k.user.len < 2 ^ 16

/-- The length of the value fits its `u16` field. -/
def Value.Fits (v : Value) : Prop := v.heapSize < 2 ^ 16

def Entry.Fits (e : Entry) : Prop := e.1.Fits ∧ e.2.Fits

instance (k : Key) : Decidable k.Fits := by unfold Key.Fits; infer_instance
instance (v : Value) : Decidable v.Fits := by unfold Value.Fits; infer_instance
instance (e : Entry) : Decidable e.Fits := by unfold Entry.Fits; infer_instance

@[simp] theorem length_keyBytes (k : Key) : (keyBytes k).length = k.diskSize := by
  simp [keyBytes, Key.diskSize, Key.heapSize, Str.len]

@[simp] theorem length_valueBytes (v : Value) : (valueBytes v).length = v.diskSize := by
  cases v <;> simp [valueBytes, Value.diskSize, Value.heapSize, Str.len]

/-- The bytes an entry takes on disk. -/
def Entry.diskSize (e : Entry) : ℕ := e.1.diskSize + e.2.diskSize

@[simp] theorem length_entryBytes (e : Entry) : (entryBytes e).length = e.diskSize := by
  simp [entryBytes, Entry.diskSize]

@[simp] theorem Entry.diskSize_stored (e : Entry) : e.stored.diskSize = e.diskSize := by
  simp [Entry.diskSize, Entry.stored]

/-! ### Reading -/

section reading
variable (e : DbError) (str : Bytes → DbResult Str)

def parseStr (len : ℕ) : Parser DbError Str := do
  let bs ← take e len
  lift (str bs)

def parseKey : Parser DbError Key := do
  let len ← beNat e 2
  let user ← parseStr e str len
  let seq ← beNat e 8
  return ⟨user, UInt64.ofNat seq⟩

def parseValue : Parser DbError Value := do
  let len ← beNat e 2
  if len = 0 then return .delete
  let s ← parseStr e str len
  return .set s

def parseEntry : Parser DbError Entry := do
  let k ← parseKey e str
  let v ← parseValue e str
  return (k, v)

theorem shrinks_parseStr (len : ℕ) : Shrinks (parseStr e str len) :=
  (shrinks_take e len).bind fun _ => shrinks_lift _

theorem shrinks_parseKey : Shrinks (parseKey e str) :=
  (shrinks_beNat e 2).bind fun _ => (shrinks_parseStr e str _).bind fun _ =>
    (shrinks_beNat e 8).bind fun _ => shrinks_pure _

theorem shrinks_parseValue : Shrinks (parseValue e str) := by
  apply (shrinks_beNat e 2).bind
  intro len
  split_ifs
  · exact shrinks_pure _
  · exact (shrinks_parseStr e str len).bind fun _ => shrinks_pure _

theorem shrinks_parseEntry : Shrinks (parseEntry e str) :=
  (shrinks_parseKey e str).bind fun _ => (shrinks_parseValue e str).bind fun _ => shrinks_pure _

end reading

/-! ### Reading back what was written -/

section roundTrip
variable {e : DbError} {str : Bytes → DbResult Str}

theorem decodes_field {bs : Bytes} {s : Str} (h : str bs = .ok s) :
    Decodes (parseStr e str bs.length) bs s := by
  have hd := (decodes_take e bs).bind (f := fun bs => lift (str bs)) (decodes_lift h)
  rwa [List.append_nil] at hd

theorem decodes_parseStr (hstr : ∀ s : Str, str s.bytes = .ok s) (s : Str) :
    Decodes (parseStr e str s.len) s.bytes s :=
  decodes_field (hstr s)

theorem torn_parseStr (s : Str) : Torn e (parseStr e str s.len) s.bytes := by
  have h := Torn.bind (f := fun bs => lift (str bs)) (decodes_take e s.bytes)
    (torn_take e s.bytes) (torn_nil e _)
  rwa [List.append_nil] at h

theorem decodes_u16 (e : DbError) {n : ℕ} (h : n < 2 ^ 16) : Decodes (beNat e 2) (be 2 n) n :=
  decodes_beNat e (w := 2) h

theorem decodes_u64 (e : DbError) (n : UInt64) : Decodes (beNat e 8) (be 8 n.toNat) n.toNat :=
  decodes_beNat e (w := 8) n.toNat_lt

theorem decodes_parseKey (hstr : ∀ s : Str, str s.bytes = .ok s) {k : Key} (h : k.Fits) :
    Decodes (parseKey e str) (keyBytes k) k := by
  have hs := (decodes_u64 e k.seq).map fun n => (⟨k.user, UInt64.ofNat n⟩ : Key)
  rw [UInt64.ofNat_toNat] at hs
  exact (decodes_u16 e h).bind ((decodes_parseStr hstr k.user).bind hs)

theorem torn_parseKey (hstr : ∀ s : Str, str s.bytes = .ok s) {k : Key} (h : k.Fits) :
    Torn e (parseKey e str) (keyBytes k) := by
  have hseq := decodes_u64 e k.seq
  exact Torn.bind (decodes_u16 e h) (torn_beNat e 2 _)
    (Torn.bind (decodes_parseStr hstr k.user) (torn_parseStr k.user)
      ((torn_beNat e 8 _).map hseq _))

/-- Length 0 stands for a deletion. -/
theorem decodes_parseValue_zero : Decodes (parseValue e str) (be 2 0) .delete := by
  have h : Decodes (parseValue e str) (be 2 0 ++ []) .delete := by
    apply (decodes_u16 e (by omega)).bind
    rw [if_pos rfl]
    exact Decodes.pure Value.delete
  rwa [List.append_nil] at h

theorem torn_parseValue_zero : Torn e (parseValue e str) (be 2 0) := by
  have h : Torn e (parseValue e str) (be 2 0 ++ []) :=
    Torn.bind (decodes_u16 e (by omega)) (torn_beNat e 2 0) (torn_nil e _)
  rwa [List.append_nil] at h

theorem valueBytes_of_len_zero {s : Str} (h : s.len = 0) : valueBytes (.set s) = be 2 0 := by
  have hs : s.bytes = [] := List.length_eq_zero_iff.mp h
  simp [valueBytes, h, hs]

theorem decodes_parseValue (hstr : ∀ s : Str, str s.bytes = .ok s) {v : Value} (h : v.Fits) :
    Decodes (parseValue e str) (valueBytes v) v.stored := by
  cases v with
  | delete => exact decodes_parseValue_zero
  | set s =>
      by_cases hz : s.len = 0
      · rw [valueBytes_of_len_zero hz, Value.stored, if_pos hz]
        exact decodes_parseValue_zero
      · rw [Value.stored, if_neg hz]
        apply (decodes_u16 e h).bind
        rw [if_neg (show ¬ (Value.set s).heapSize = 0 from hz)]
        exact (decodes_parseStr hstr s).map Value.set

theorem torn_parseValue (hstr : ∀ s : Str, str s.bytes = .ok s) {v : Value} (h : v.Fits) :
    Torn e (parseValue e str) (valueBytes v) := by
  cases v with
  | delete => exact torn_parseValue_zero
  | set s =>
      by_cases hz : s.len = 0
      · rw [valueBytes_of_len_zero hz]
        exact torn_parseValue_zero
      · refine Torn.bind (decodes_u16 e h) (torn_beNat e 2 _) ?_
        rw [if_neg hz]
        exact (torn_parseStr s).map (decodes_parseStr hstr s) Value.set

theorem decodes_parseEntry (hstr : ∀ s : Str, str s.bytes = .ok s) {x : Entry} (h : x.Fits) :
    Decodes (parseEntry e str) (entryBytes x) x.stored :=
  (decodes_parseKey hstr h.1).bind ((decodes_parseValue hstr h.2).map fun v => (x.1, v))

theorem torn_parseEntry (hstr : ∀ s : Str, str s.bytes = .ok s) {x : Entry} (h : x.Fits) :
    Torn e (parseEntry e str) (entryBytes x) :=
  Torn.bind (decodes_parseKey hstr h.1) (torn_parseKey hstr h.1)
    ((torn_parseValue hstr h.2).map (decodes_parseValue hstr h.2) fun v => (x.1, v))

end roundTrip

/-! ### What a reader accepts -/

/-- The fields of an entry, whether or not the bytes of its strings are text. -/
def fieldBytes (user : Bytes) (seq : UInt64) (value : Bytes) : Bytes :=
  (be 2 user.length ++ (user ++ be 8 seq.toNat)) ++ (be 2 value.length ++ value)

section fields
variable {e : DbError} {str : Bytes → DbResult Str} {user value bs rest : Bytes} {x : Entry}

/-- The value that a reader makes of the bytes of the field. -/
def ReadsValue (str : Bytes → DbResult Str) (bs : Bytes) (v : Value) : Prop :=
  bs = [] ∧ v = .delete ∨ bs ≠ [] ∧ ∃ s, str bs = .ok s ∧ v = .set s

theorem parseStr_eq_ok {len : ℕ} {s : Str} (h : parseStr e str len bs = .ok (s, rest)) :
    ∃ as, bs = as ++ rest ∧ as.length = len ∧ str as = .ok s := by
  obtain ⟨as, mid, ht, hl⟩ := bind_eq_ok h
  obtain ⟨rfl, hlen⟩ := take_eq_ok ht
  unfold lift at hl
  cases hs : str as with
  | error e => rw [hs] at hl; cases hl
  | ok s' =>
      rw [hs] at hl
      cases hl
      exact ⟨as, rfl, hlen, hs⟩

/-- A field of two bytes holds a number below `2^16`. -/
theorem u16_eq_ok {n : ℕ} (h : beNat e 2 bs = .ok (n, rest)) : bs = be 2 n ++ rest ∧ n < 2 ^ 16 := by
  obtain ⟨as, rfl, hlen, rfl⟩ := beNat_eq_ok h
  have hb := be_nat as
  have hlt := nat_lt as
  rw [hlen] at hb hlt
  exact ⟨by rw [hb], hlt⟩

theorem u64_eq_ok {n : ℕ} (h : beNat e 8 bs = .ok (n, rest)) :
    bs = be 8 (UInt64.ofNat n).toNat ++ rest := by
  obtain ⟨as, rfl, hlen, rfl⟩ := beNat_eq_ok h
  have hb := be_nat as
  have hlt := nat_lt as
  rw [hlen] at hb hlt
  have hn : (UInt64.ofNat (nat as)).toNat = nat as :=
    UInt64.toNat_ofNat'.trans (Nat.mod_eq_of_lt hlt)
  rw [hn, hb]

theorem parseKey_eq_ok {k : Key} (h : parseKey e str bs = .ok (k, rest)) :
    ∃ user, bs = be 2 user.length ++ (user ++ be 8 k.seq.toNat) ++ rest ∧ user.length < 2 ^ 16 ∧
      str user = .ok k.user := by
  obtain ⟨len, m₁, h₁, h⟩ := bind_eq_ok h
  obtain ⟨s, m₂, h₂, h⟩ := bind_eq_ok h
  obtain ⟨seq, m₃, h₃, h⟩ := bind_eq_ok h
  cases h
  obtain ⟨rfl, hlt⟩ := u16_eq_ok h₁
  obtain ⟨user, rfl, rfl, hs⟩ := parseStr_eq_ok h₂
  obtain rfl := u64_eq_ok h₃
  exact ⟨user, by simp only [List.append_assoc], hlt, hs⟩

theorem parseValue_eq_ok {v : Value} (h : parseValue e str bs = .ok (v, rest)) :
    ∃ value, bs = be 2 value.length ++ value ++ rest ∧ value.length < 2 ^ 16 ∧
      ReadsValue str value v := by
  obtain ⟨len, m₁, h₁, hlen⟩ := bind_eq_ok h
  obtain ⟨rfl, hlt⟩ := u16_eq_ok h₁
  split_ifs at hlen with hz
  · cases hlen
    exact ⟨[], by rw [hz, List.append_nil]; rfl, by decide, .inl ⟨rfl, rfl⟩⟩
  · obtain ⟨s, m₂, h₂, hset⟩ := bind_eq_ok hlen
    cases hset
    obtain ⟨value, rfl, rfl, hs⟩ := parseStr_eq_ok h₂
    refine ⟨value, by rw [List.append_assoc], hlt, .inr ⟨?_, s, hs, rfl⟩⟩
    rintro rfl
    exact hz rfl

/-- A reader takes the fields of an entry. -/
theorem parseEntry_eq_ok (h : parseEntry e str bs = .ok (x, rest)) :
    ∃ user value, bs = fieldBytes user x.1.seq value ++ rest ∧ user.length < 2 ^ 16 ∧
      value.length < 2 ^ 16 ∧ str user = .ok x.1.user ∧ ReadsValue str value x.2 := by
  obtain ⟨k, m₁, h₁, h⟩ := bind_eq_ok h
  obtain ⟨v, m₂, h₂, h⟩ := bind_eq_ok h
  cases h
  obtain ⟨user, rfl, hu, hs⟩ := parseKey_eq_ok h₁
  obtain ⟨value, rfl, hv, hr⟩ := parseValue_eq_ok h₂
  exact ⟨user, value, by simp only [fieldBytes, List.append_assoc], hu, hv, hs, hr⟩

/-- A reader that can make text of the strings takes the fields. -/
theorem decodes_fieldBytes (hu : user.length < 2 ^ 16) (hv : value.length < 2 ^ 16)
    (hs : str user = .ok x.1.user) (hr : ReadsValue str value x.2) :
    Decodes (parseEntry e str) (fieldBytes user x.1.seq value) x := by
  have hseq := (decodes_u64 e x.1.seq).map fun n => (⟨x.1.user, UInt64.ofNat n⟩ : Key)
  rw [UInt64.ofNat_toNat] at hseq
  have hkey : Decodes (parseKey e str) (be 2 user.length ++ (user ++ be 8 x.1.seq.toNat)) x.1 :=
    (decodes_u16 e hu).bind ((decodes_field hs).bind hseq)
  have hvalue : Decodes (parseValue e str) (be 2 value.length ++ value) x.2 := by
    rcases hr with ⟨rfl, hx⟩ | ⟨hne, s, hs, hx⟩
    · rw [hx, List.append_nil]
      exact decodes_parseValue_zero
    · apply (decodes_u16 e hv).bind
      rw [if_neg (by rwa [List.length_eq_zero_iff]), hx]
      exact (decodes_field hs).map Value.set
  exact hkey.bind (hvalue.map fun v => (x.1, v))

end fields

/-! ### A lossy reader returns at least what it takes -/

section growth
variable {e : DbError}

/-- The conversion of the log reader and of the table scan: `String::from_utf8_lossy`. -/
def lossyStr (bs : Bytes) : DbResult Str := .ok (Str.lossy bs)

theorem lossyStr_bytes (s : Str) : lossyStr s.bytes = .ok s := by
  rw [lossyStr, Str.lossy_bytes]

theorem length_of_parseStr {len : ℕ} {bs rest : Bytes} {s : Str}
    (h : parseStr e lossyStr len bs = .ok (s, rest)) :
    bs.length = len + rest.length ∧ len ≤ s.len := by
  obtain ⟨as, mid, ht, hl⟩ := bind_eq_ok h
  obtain ⟨rfl, rfl⟩ := take_eq_ok ht
  cases hl
  exact ⟨by simp, Str.length_le_lossy as⟩

theorem grows_parseKey : Grows (parseKey e lossyStr) Key.diskSize := by
  intro bs k rest h
  obtain ⟨len, m₁, h₁, h⟩ := bind_eq_ok h
  obtain ⟨user, m₂, h₂, h⟩ := bind_eq_ok h
  obtain ⟨seq, m₃, h₃, h⟩ := bind_eq_ok h
  cases h
  have e₁ := length_of_beNat h₁
  have e₂ := length_of_parseStr h₂
  have e₃ := length_of_beNat h₃
  simp only [Key.diskSize, Key.heapSize]
  omega

theorem grows_parseValue : Grows (parseValue e lossyStr) Value.diskSize := by
  intro bs v rest h
  obtain ⟨len, m₁, h₁, h⟩ := bind_eq_ok h
  have e₁ := length_of_beNat h₁
  split_ifs at h with hz
  · cases h
    simp only [Value.diskSize]
    omega
  · obtain ⟨s, m₂, h₂, h⟩ := bind_eq_ok h
    cases h
    have e₂ := length_of_parseStr h₂
    simp only [Value.diskSize, Value.heapSize]
    omega

theorem grows_parseEntry : Grows (parseEntry e lossyStr) Entry.diskSize := by
  intro bs x rest h
  obtain ⟨k, m₁, h₁, h⟩ := bind_eq_ok h
  obtain ⟨v, m₂, h₂, h⟩ := bind_eq_ok h
  cases h
  have e₁ := grows_parseKey _ _ _ h₁
  have e₂ := grows_parseValue _ _ _ h₂
  simp only [Entry.diskSize]
  omega

end growth

end LowDB
