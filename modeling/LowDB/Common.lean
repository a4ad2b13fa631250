import Mathlib.Data.List.Lex
import Mathlib.Data.List.Sort
import Mathlib.Data.Prod.Lex
import Mathlib.Order.Lattice
import LowDB.Lib.Codec
import LowDB.Lib.Utf8

/-! # Keys, values, lookups and errors

The crate `common`.  A Rust `String` is a byte string that is valid UTF-8 (`Str`), ordered byte
by byte.  A `Key` is a user key with a sequence number; keys are ordered by user key and, within
one user key, from the newest sequence number to the oldest.

The two on-disk formats store a value by its length and its bytes, and use length 0 for a
deletion, so an empty `Set` is read back as `Delete`: `Value.stored` is what they keep, and
`Value.text` is the text a reader is left with. -/

namespace LowDB

abbrev Bytes := List UInt8

/-! ### Errors -/

/-- `std::io::ErrorKind`, as far as the code looks at it. -/
inductive ErrorKind where
  | unexpectedEof
  | notFound
  | other
deriving DecidableEq, Repr

inductive DbError where
  | invalidInt (msg : String)
  | io (kind : ErrorKind)
  | invalidValue (msg : String)
  | invalidState (msg : String)
  | commitConflict
deriving DecidableEq, Repr

abbrev DbResult (α : Type) := Except DbError α

/-- A sequence of two steps succeeds when both do. -/
theorem ok_of_bind {ε α β : Type} {x : Except ε α} {f : α → Except ε β} {b : β}
    (h : x >>= f = .ok b) : ∃ a, x = .ok a ∧ f a = .ok b := by
  cases x with
  | error e => cases h
  | ok a => exact ⟨a, rfl, h⟩

theorem ok_of_toOption {ε α : Type} {x : Except ε α} {a : α} (h : x.toOption = some a) : x = .ok a := by
  cases x with
  | error e => cases h
  | ok b => exact congrArg Except.ok (Option.some.inj h)

/-- `From<TryFromIntError> for DbError`.  The text is that of `std` in Rust 1.85, the first release with
the edition that the crates ask for; it is not the same in every toolchain. -/
def DbError.tryFromInt : DbError :=
  .invalidInt "out of range integral type conversion attempted"

/-- The error of a read that meets the end of its input. -/
def DbError.eof : DbError := .io .unexpectedEof

/-- `let len: u16 = n.try_into()?`. -/
def tryU16 (n : ℕ) : DbResult ℕ := if n < 2 ^ 16 then .ok n else .error .tryFromInt

/-- `let len: u32 = n.try_into()?`. -/
def tryU32 (n : ℕ) : DbResult ℕ := if n < 2 ^ 32 then .ok n else .error .tryFromInt

theorem tryU16_ok {n : ℕ} (h : n < 2 ^ 16) : tryU16 n = .ok n := if_pos h

theorem tryU16_error {n : ℕ} (h : ¬ n < 2 ^ 16) : tryU16 n = .error .tryFromInt := if_neg h

theorem tryU32_ok {n : ℕ} (h : n < 2 ^ 32) : tryU32 n = .ok n := if_pos h

theorem tryU32_error {n : ℕ} (h : ¬ n < 2 ^ 32) : tryU32 n = .error .tryFromInt := if_neg h

/-! ### Strings -/

/-- A Rust `String`: bytes that are valid UTF-8. -/
structure Str where
  bytes : Bytes
  utf8 : Utf8.Valid bytes

namespace Str

@[ext] theorem ext {s t : Str} (h : s.bytes = t.bytes) : s = t := by
  cases s; cases t; cases h; rfl

instance : DecidableEq Str := fun s t =>
  decidable_of_iff (s.bytes = t.bytes) ⟨ext, fun h => by rw [h]⟩

theorem bytes_toNat_injective :
    Function.Injective (fun s : Str => s.bytes.map UInt8.toNat) := by
  intro s t h
  exact ext (List.map_injective_iff.mpr (fun _ _ => UInt8.toNat_inj.mp) h)

/-- `impl Ord for str`: lexicographic on the bytes. -/
instance : LinearOrder Str := LinearOrder.lift' _ bytes_toNat_injective

def len (s : Str) : ℕ := s.bytes.length

instance : Inhabited Str := ⟨⟨[], Utf8.valid_nil⟩⟩

/-- `""`. -/
def empty : Str := default

theorem lt_of_isAscii {bs : Bytes} (h : bs.all (fun b => decide (b < 0x80)) = true) :
    ∀ b ∈ bs, b < 0x80 := fun b hb => of_decide_eq_true (List.all_eq_true.mp h b hb)

/-- A string of ASCII bytes. -/
def ascii (bs : Bytes) (h : bs.all (fun b => decide (b < 0x80)) = true := by exact Eq.refl true) :
    Str := ⟨bs, Utf8.valid_of_ascii (lt_of_isAscii h)⟩

theorem isAscii_replicate {b : UInt8} (n : ℕ) (h : decide (b < 0x80) = true) :
    (List.replicate n b).all (fun b => decide (b < 0x80)) = true :=
  List.all_eq_true.mpr fun c hc => by rwa [List.eq_of_mem_replicate hc]

/-- `n` times the same ASCII character, `c.repeat(n)`. -/
def repeated (n : ℕ) (b : UInt8) (h : decide (b < 0x80) = true := by exact Eq.refl true) : Str :=
  ascii (List.replicate n b) (isAscii_replicate n h)

/-- `String::from_utf8_lossy`. -/
def lossy (bs : Bytes) : Str := ⟨Utf8.lossy bs, Utf8.valid_lossy bs⟩

/-- `std::str::from_utf8`. -/
def fromUtf8 (bs : Bytes) : Option Str := if h : Utf8.Valid bs then some ⟨bs, h⟩ else none

@[simp] theorem lossy_bytes (s : Str) : lossy s.bytes = s := ext (Utf8.lossy_of_valid s.utf8)

@[simp] theorem fromUtf8_bytes (s : Str) : fromUtf8 s.bytes = some s := dif_pos s.utf8

theorem length_le_lossy (bs : Bytes) : bs.length ≤ (lossy bs).len := Utf8.length_le_lossy bs

@[simp] theorem len_repeated (n : ℕ) (b : UInt8) (h : decide (b < 0x80) = true) : (repeated n b h).len = n :=
  List.length_replicate

theorem eq_empty_iff {s : Str} : s = empty ↔ s.len = 0 :=
  ⟨fun h => by rw [h]; rfl, fun h => ext (List.length_eq_zero_iff.mp h)⟩

end Str

/-! ### Keys -/

/-- `Key(String, u64)`. -/
structure Key where
  user : Str
  seq : UInt64
deriving DecidableEq

namespace Key

theorem lex_injective : Function.Injective
    (fun k : Key => toLex (k.user, OrderDual.toDual k.seq.toNat)) := by
  rintro ⟨u, s⟩ ⟨u', s'⟩ h
  simp only [EmbeddingLike.apply_eq_iff_eq, Prod.mk.injEq] at h
  rw [h.1, UInt64.toNat_inj.mp h.2]

/-- `impl Ord for Key`: `self.0.cmp(&other.0).then_with(|| other.1.cmp(&self.1))`. -/
instance : LinearOrder Key := LinearOrder.lift' _ lex_injective

theorem lt_iff {a b : Key} :
    a < b ↔ a.user < b.user ∨ a.user = b.user ∧ b.seq.toNat < a.seq.toNat :=
  Prod.Lex.toLex_lt_toLex

theorem user_le {a b : Key} (h : a ≤ b) : a.user ≤ b.user := by
  rcases h.lt_or_eq with h | rfl
  · rcases lt_iff.mp h with h | ⟨h, _⟩
    · exact h.le
    · exact h.le
  · exact le_rfl

/-- `cmp_key(stored, key, seq) == Less`, for any `u64` bound `seq`. -/
def before (stored : Key) (key : Str) (seq : ℕ) : Prop :=
  stored.user < key ∨ stored.user = key ∧ seq < stored.seq.toNat

instance (stored : Key) (key : Str) (seq : ℕ) : Decidable (stored.before key seq) := by
  unfold before; infer_instance

theorem before_iff {stored k : Key} : stored.before k.user k.seq.toNat ↔ stored < k := by
  rw [lt_iff, before]

def heapSize (k : Key) : ℕ := k.user.len + 8

def diskSize (k : Key) : ℕ := 2 + k.heapSize

/-- What lies before a bound lies before it together with everything smaller. -/
theorem before_of_lt {a b : Key} {u : Str} {s : ℕ} (hab : a < b) (hb : b.before u s) :
    a.before u s := by
  rcases hb with hb | ⟨rfl, hb⟩
  · rcases lt_iff.mp hab with h | ⟨h, _⟩
    · exact .inl (h.trans hb)
    · exact .inl (h ▸ hb)
  · rcases lt_iff.mp hab with h | ⟨h, hs⟩
    · exact .inl h
    · exact .inr ⟨h, hb.trans hs⟩

theorem before_of_le {a b : Key} {u : Str} {s : ℕ} (hab : a ≤ b) (hb : b.before u s) :
    a.before u s := by
  rcases hab.lt_or_eq with h | rfl
  · exact before_of_lt h hb
  · exact hb

end Key

/-! ### Values -/

inductive Value where
  | set (s : Str)
  | delete
deriving DecidableEq

namespace Value

def heapSize : Value → ℕ
  | set s => s.len
  | delete => 0

def diskSize (v : Value) : ℕ := 2 + v.heapSize

/-- The value the on-disk formats keep: an empty `Set` becomes `Delete`. -/
def stored : Value → Value
  | set s => if s.len = 0 then delete else set s
  | delete => delete

/-- The text of a value, `None` for a deletion and for the empty text. -/
def text : Value → Option Str
  | set s => if s.len = 0 then none else some s
  | delete => none

@[simp] theorem text_stored (v : Value) : v.stored.text = v.text := by
  cases v with
  | delete => rfl
  | set s => by_cases h : s.len = 0 <;> simp [stored, text, h]

@[simp] theorem diskSize_stored (v : Value) : v.stored.diskSize = v.diskSize := by
  cases v with
  | delete => rfl
  | set s => by_cases h : s.len = 0 <;> simp [stored, diskSize, heapSize, h]

@[simp] theorem stored_stored (v : Value) : v.stored.stored = v.stored := by
  cases v with
  | delete => rfl
  | set s => by_cases h : s.len = 0 <;> simp [stored, h]

end Value

/-- A stored version. -/
abbrev Entry := Key × Value

/-- The entry as the on-disk formats keep it. -/
def Entry.stored (e : Entry) : Entry := (e.1, e.2.stored)

/-! ### Lookups -/

inductive Lookup where
  | found (s : Str)
  | deleted
  | absent
deriving DecidableEq

namespace Lookup

/-- The answer `SkipList` and the tables give for the entry a search stopped at. -/
def ofValue : Value → Lookup
  | .set s => found s
  | .delete => deleted

/-- Absent, or present with the text of the value. -/
def text : Lookup → Option (Option Str)
  | found s => some (Value.set s).text
  | deleted => some none
  | absent => none

@[simp] theorem text_ofValue (v : Value) : (ofValue v).text = some v.text := by cases v <;> rfl

/-- The answer of a table for a value that a memtable answers with. -/
def stored : Lookup → Lookup
  | found s => ofValue (Value.set s).stored
  | deleted => deleted
  | absent => absent

@[simp] theorem stored_ofValue (v : Value) : (ofValue v).stored = ofValue v.stored := by
  cases v <;> rfl

theorem text_eq_none {l : Lookup} : l.text = none ↔ l = absent := by cases l <;> simp [text]

end Lookup

/-- `Some("")` and `None` identified. -/
def identify (o : Option Str) : Option Str := o.bind fun s => (Value.set s).text

end LowDB
