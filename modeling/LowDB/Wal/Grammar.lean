import LowDB.Lib.Formats
import LowDB.Wal.Reader

/-! # What the log reader accepts

`wal/src/reader.rs` on arbitrary bytes, not only on those that `WalWriter` wrote.  A `RawCmd` is a record
as it stands in a file: each string field is any bytes with a length that fits its `u16`, each id and
sequence number any `u64`.  `WalReader::next` reads a raw record from the front, with the text that
`from_utf8_lossy` makes of the string fields; it fails with an end-of-file error where the bytes stop
inside a raw record, and with an invalid state where the opcode is none of the four.

The main result is `readAll_iff`: a file is read to its end exactly if it is raw records one after another,
and otherwise the error is that of what follows the last whole record. -/

namespace LowDB

open Codec

/-! ### Raw records -/

/-- A string field: a length of two bytes and that many bytes, whatever they are. -/
structure RawStr where
  bytes : Bytes
  short : bytes.length < 2 ^ 16

namespace RawStr

def encode (r : RawStr) : Bytes := be 2 r.bytes.length ++ r.bytes

def text (r : RawStr) : Str := Str.lossy r.bytes

/-- As a value the empty field is a deletion. -/
def value (r : RawStr) : Value := if r.bytes.length = 0 then .delete else .set r.text

end RawStr

structure RawEntry where
  user : RawStr
  seq : UInt64
  val : RawStr

namespace RawEntry

def encode (r : RawEntry) : Bytes := r.user.encode ++ (be 8 r.seq.toNat ++ r.val.encode)

def entry (r : RawEntry) : Entry := (⟨r.user.text, r.seq⟩, r.val.value)

end RawEntry

inductive RawCmd where
  | txBegin (tx : UInt64)
  | txCommit (tx : UInt64)
  | op (tx : UInt64) (entry : RawEntry)
  | batch (tx : UInt64) (batch : List RawEntry) (short : batch.length < 2 ^ 16)

namespace RawCmd

def opcode : RawCmd → ℕ
  | txBegin _ => txBeginCmd
  | txCommit _ => txCommitCmd
  | op _ _ => opCmd
  | batch _ _ _ => batchCmd

/-- The bytes after the opcode. -/
def fields : RawCmd → Bytes
  | txBegin tx => be 8 tx.toNat
  | txCommit tx => be 8 tx.toNat
  | op tx e => be 8 tx.toNat ++ e.encode
  | batch tx es _ => be 2 es.length ++ (be 8 tx.toNat ++ es.flatMap RawEntry.encode)

def encode (r : RawCmd) : Bytes := UInt8.ofNat r.opcode :: r.fields

/-- The record that is read. -/
def cmd : RawCmd → WalCmd
  | txBegin tx => .txBegin tx
  | txCommit tx => .txCommit tx
  | op tx e => .op tx e.entry.1 e.entry.2
  | batch tx es _ => .batch tx (es.map RawEntry.entry)

end RawCmd

namespace WalReader

/-! ### The parts of a record -/

theorem recognizes_u16 :
    Recognizes DbError.eof (beNat .eof 2) fun bs n => bs = be 2 n ∧ n < 2 ^ 16 :=
  Recognizes.beNat _ 2

theorem recognizes_u64 :
    Recognizes DbError.eof (beNat .eof 8) fun bs n => ∃ x : UInt64, bs = be 8 x.toNat ∧ n = x.toNat := by
  refine (Recognizes.beNat _ 8).congr fun bs n => ?_
  constructor
  · rintro ⟨rfl, hn⟩
    have hx : (UInt64.ofNat n).toNat = n := UInt64.toNat_ofNat_of_lt' hn
    exact ⟨UInt64.ofNat n, by rw [hx], hx.symm⟩
  · rintro ⟨x, rfl, rfl⟩
    exact ⟨rfl, x.toNat_lt⟩

theorem recognizes_parseStr (len : ℕ) :
    Recognizes DbError.eof (parseStr .eof lossyStr len) fun bs s =>
      bs.length = len ∧ s = Str.lossy bs := by
  refine ((Recognizes.take _ len).bind fun bs => Recognizes.lift _ rfl).congr fun bs s => ?_
  constructor
  · rintro ⟨_, _, as, rfl, ⟨rfl, hlen⟩, rfl, rfl⟩
    rw [List.append_nil]
    exact ⟨hlen, rfl⟩
  · rintro ⟨hlen, rfl⟩
    exact ⟨bs, [], bs, by simp, ⟨rfl, hlen⟩, rfl, rfl⟩

/-- An id or a sequence number, made part of the result. -/
theorem recognizes_map_u64 {β : Type} (f : UInt64 → β) :
    Recognizes DbError.eof (beNat .eof 8 >>= fun n => pure (f (UInt64.ofNat n))) fun bs b =>
      ∃ x : UInt64, bs = be 8 x.toNat ∧ b = f x := by
  refine (recognizes_u64.map fun n => f (UInt64.ofNat n)).congr fun bs b => ?_
  constructor
  · rintro ⟨_, ⟨x, rfl, rfl⟩, rfl⟩
    exact ⟨x, rfl, congrArg f UInt64.ofNat_toNat⟩
  · rintro ⟨x, rfl, rfl⟩
    exact ⟨_, ⟨x, rfl, rfl⟩, congrArg f UInt64.ofNat_toNat.symm⟩

theorem recognizes_readKey :
    Recognizes DbError.eof readKey fun bs k =>
      ∃ (r : RawStr) (seq : UInt64), bs = r.encode ++ be 8 seq.toNat ∧ k = ⟨r.text, seq⟩ := by
  refine (recognizes_u16.bind fun len => (recognizes_parseStr len).bind fun user =>
    recognizes_map_u64 (Key.mk user)).congr fun bs k => ?_
  constructor
  · rintro ⟨_, _, _, rfl, ⟨rfl, hlen⟩, raw, _, _, rfl, ⟨rfl, rfl⟩, x, rfl, rfl⟩
    exact ⟨⟨raw, hlen⟩, x, (List.append_assoc ..).symm, rfl⟩
  · rintro ⟨r, x, rfl, rfl⟩
    exact ⟨be 2 r.bytes.length, r.bytes ++ be 8 x.toNat, _, List.append_assoc .., ⟨rfl, r.short⟩,
      r.bytes, be 8 x.toNat, r.text, rfl, ⟨rfl, rfl⟩, x, rfl, rfl⟩

theorem recognizes_readValue :
    Recognizes DbError.eof readValue fun bs v => ∃ r : RawStr, bs = r.encode ∧ v = r.value := by
  have hbody : ∀ len, Recognizes DbError.eof
      (if len = 0 then pure .delete else parseStr .eof lossyStr len >>= fun s => pure (Value.set s))
      fun bs v => bs.length = len ∧ v = if len = 0 then .delete else .set (Str.lossy bs) := by
    intro len
    by_cases h : len = 0
    · rw [if_pos h]
      refine (Recognizes.pure _ _).congr fun bs v => ?_
      rw [if_pos h, h, List.length_eq_zero_iff]
      exact Iff.rfl
    · rw [if_neg h]
      refine ((recognizes_parseStr len).map Value.set).congr fun bs v => ?_
      rw [if_neg h]
      constructor
      · rintro ⟨_, ⟨hlen, rfl⟩, rfl⟩
        exact ⟨hlen, rfl⟩
      · rintro ⟨hlen, rfl⟩
        exact ⟨_, ⟨hlen, rfl⟩, rfl⟩
  refine (recognizes_u16.bind hbody).congr fun bs v => ?_
  constructor
  · rintro ⟨_, raw, _, rfl, ⟨rfl, hlen⟩, rfl, rfl⟩
    exact ⟨⟨raw, hlen⟩, rfl, rfl⟩
  · rintro ⟨r, rfl, rfl⟩
    exact ⟨be 2 r.bytes.length, r.bytes, _, rfl, ⟨rfl, r.short⟩, rfl, rfl⟩

theorem recognizes_readKeyValue :
    Recognizes DbError.eof readKeyValue fun bs e => ∃ r : RawEntry, bs = r.encode ∧ e = r.entry := by
  refine (recognizes_readKey.bind fun k =>
    recognizes_readValue.map fun v => (k, v)).congr fun bs e => ?_
  constructor
  · rintro ⟨_, _, _, rfl, ⟨user, seq, rfl, rfl⟩, _, ⟨val, rfl, rfl⟩, rfl⟩
    exact ⟨⟨user, seq, val⟩, List.append_assoc .., rfl⟩
  · rintro ⟨⟨user, seq, val⟩, rfl, rfl⟩
    exact ⟨_, val.encode, _, (List.append_assoc ..).symm, ⟨user, seq, rfl, rfl⟩, _, ⟨val, rfl, rfl⟩, rfl⟩

/-- A batch has as many entries as its length field says. -/
theorem recognizes_readBatch (n : ℕ) :
    Recognizes DbError.eof (readBatch n) fun bs es =>
      ∃ rs : List RawEntry, rs.length = n ∧ bs = rs.flatMap RawEntry.encode ∧
        es = rs.map RawEntry.entry := by
  induction n with
  | zero =>
      refine (Recognizes.pure _ []).congr fun bs es => ?_
      constructor
      · rintro ⟨rfl, rfl⟩
        exact ⟨[], rfl, rfl, rfl⟩
      · rintro ⟨rs, hlen, rfl, rfl⟩
        rw [List.length_eq_zero_iff.mp hlen]
        exact ⟨rfl, rfl⟩
  | succ n ih =>
      refine (recognizes_readKeyValue.bind fun e => ih.map (List.cons e)).congr fun bs es => ?_
      constructor
      · rintro ⟨_, _, _, rfl, ⟨r, rfl, rfl⟩, _, ⟨rs, rfl, rfl, rfl⟩, rfl⟩
        exact ⟨r :: rs, rfl, rfl, rfl⟩
      · rintro ⟨rs, hlen, rfl, rfl⟩
        cases rs with
        | nil => cases hlen
        | cons r rs =>
            exact ⟨r.encode, _, _, rfl, ⟨r, rfl, rfl⟩, _, ⟨rs, Nat.succ.inj hlen, rfl, rfl⟩, rfl⟩

/-! ### One record -/

theorem recognizes_op :
    Recognizes DbError.eof (readCmd opCmd) fun bs c =>
      ∃ (x : UInt64) (e : RawEntry), bs = be 8 x.toNat ++ e.encode ∧
        c = .op x e.entry.1 e.entry.2 := by
  refine (recognizes_u64.bind fun tx => recognizes_readKeyValue.map fun e =>
    WalCmd.op (UInt64.ofNat tx) e.1 e.2).congr fun bs c => ?_
  constructor
  · rintro ⟨_, _, _, rfl, ⟨x, rfl, rfl⟩, _, ⟨e, rfl, rfl⟩, rfl⟩
    exact ⟨x, e, rfl, by rw [UInt64.ofNat_toNat]⟩
  · rintro ⟨x, e, rfl, rfl⟩
    exact ⟨_, e.encode, _, rfl, ⟨x, rfl, rfl⟩, _, ⟨e, rfl, rfl⟩, by rw [UInt64.ofNat_toNat]⟩

theorem recognizes_batch :
    Recognizes DbError.eof (readCmd batchCmd) fun bs c =>
      ∃ (x : UInt64) (es : List RawEntry), es.length < 2 ^ 16 ∧
        bs = be 2 es.length ++ (be 8 x.toNat ++ es.flatMap RawEntry.encode) ∧
        c = .batch x (es.map RawEntry.entry) := by
  refine (recognizes_u16.bind fun len => recognizes_u64.bind fun tx =>
    (recognizes_readBatch len).map (WalCmd.batch (UInt64.ofNat tx))).congr fun bs c => ?_
  constructor
  · rintro ⟨_, _, _, rfl, ⟨rfl, hlen⟩, _, _, _, rfl, ⟨x, rfl, rfl⟩, _, ⟨es, rfl, rfl, rfl⟩, rfl⟩
    exact ⟨x, es, hlen, rfl, by rw [UInt64.ofNat_toNat]⟩
  · rintro ⟨x, es, hlen, rfl, rfl⟩
    exact ⟨_, _, _, rfl, ⟨rfl, hlen⟩, _, es.flatMap RawEntry.encode, _, rfl, ⟨x, rfl, rfl⟩, _,
      ⟨es, rfl, rfl, rfl⟩, by rw [UInt64.ofNat_toNat]⟩

theorem recognizes_readCmd {op : ℕ} (h : op = 1 ∨ op = 2 ∨ op = 3 ∨ op = 4) :
    Recognizes DbError.eof (readCmd op) fun bs c =>
      ∃ r : RawCmd, r.opcode = op ∧ bs = r.fields ∧ c = r.cmd := by
  rcases h with rfl | rfl | rfl | rfl
  · refine (recognizes_map_u64 WalCmd.txBegin).congr fun bs c => ⟨?_, ?_⟩
    · rintro ⟨x, rfl, rfl⟩
      exact ⟨.txBegin x, rfl, rfl, rfl⟩
    · rintro ⟨r, hop, rfl, rfl⟩
      cases r with
      | txBegin x => exact ⟨x, rfl, rfl⟩
      | txCommit _ | op _ _ | batch _ _ _ => cases hop
  · refine (recognizes_map_u64 WalCmd.txCommit).congr fun bs c => ⟨?_, ?_⟩
    · rintro ⟨x, rfl, rfl⟩
      exact ⟨.txCommit x, rfl, rfl, rfl⟩
    · rintro ⟨r, hop, rfl, rfl⟩
      cases r with
      | txCommit x => exact ⟨x, rfl, rfl⟩
      | txBegin _ | op _ _ | batch _ _ _ => cases hop
  · refine recognizes_op.congr fun bs c => ⟨?_, ?_⟩
    · rintro ⟨x, e, rfl, rfl⟩
      exact ⟨.op x e, rfl, rfl, rfl⟩
    · rintro ⟨r, hop, rfl, rfl⟩
      cases r with
      | op x e => exact ⟨x, e, rfl, rfl⟩
      | txBegin _ | txCommit _ | batch _ _ _ => cases hop
  · refine recognizes_batch.congr fun bs c => ⟨?_, ?_⟩
    · rintro ⟨x, es, hlen, rfl, rfl⟩
      exact ⟨.batch x es hlen, rfl, rfl, rfl⟩
    · rintro ⟨r, hop, rfl, rfl⟩
      cases r with
      | batch x es hlen => exact ⟨x, es, hlen, rfl, rfl⟩
      | txBegin _ | txCommit _ | op _ _ => cases hop

/-- What `next` makes of bytes that neither are empty nor begin with a whole record: they stop inside
one, or the opcode is none of the four. -/
def Broken (bs : Bytes) (e : DbError) : Prop :=
  (e = .eof ∧ ∃ r : RawCmd, bs <+: r.encode ∧ bs ≠ [] ∧ bs ≠ r.encode) ∨
    ∃ b rest, bs = b :: rest ∧ ¬ (1 ≤ b.toNat ∧ b.toNat ≤ 4) ∧
      e = .invalidState s!"unexpected WAL command: {b.toNat}"

theorem readCmd_of_unexpected {op : ℕ} {bs : Bytes} (h : ¬ (1 ≤ op ∧ op ≤ 4)) :
    readCmd op bs = .error (.invalidState s!"unexpected WAL command: {op}") := by
  unfold readCmd txBeginCmd txCommitCmd opCmd batchCmd
  rw [if_neg (by omega), if_neg (by omega), if_neg (by omega), if_neg (by omega)]
  rfl

theorem opcode_cases (r : RawCmd) : r.opcode = 1 ∨ r.opcode = 2 ∨ r.opcode = 3 ∨ r.opcode = 4 := by
  cases r <;> simp [RawCmd.opcode, txBeginCmd, txCommitCmd, opCmd, batchCmd]

theorem toNat_opcode (r : RawCmd) : (UInt8.ofNat r.opcode).toNat = r.opcode := by
  rcases opcode_cases r with h | h | h | h <;> rw [h] <;> rfl

theorem next_rawEncode (r : RawCmd) (rest : Bytes) :
    next (r.encode ++ rest) = .ok (some (r.cmd, rest)) := by
  have h := (recognizes_readCmd (opcode_cases r)).decodes r.fields r.cmd ⟨r, rfl, rfl, rfl⟩ rest
  rw [RawCmd.encode, List.cons_append, next_cons, toNat_opcode, h]
  rfl

theorem next_broken {bs : Bytes} {e : DbError} (h : Broken bs e) : next bs = .error e := by
  rcases h with ⟨rfl, r, hpre, hne, hne'⟩ | ⟨b, rest, rfl, hb, rfl⟩
  · cases bs with
    | nil => exact absurd rfl hne
    | cons b bs =>
        obtain ⟨rfl, hfields⟩ := List.cons_prefix_cons.mp hpre
        have h := (recognizes_readCmd (opcode_cases r)).torn r.fields r.cmd ⟨r, rfl, rfl, rfl⟩ bs hfields
          fun he => hne' (by rw [he]; rfl)
        rw [next_cons, toNat_opcode, h]
        rfl
  · rw [next_cons, readCmd_of_unexpected hb]
    rfl

/-- Bytes are at their end, begin with a record, or are broken. -/
theorem exists_front (bs : Bytes) :
    bs = [] ∨ (∃ (r : RawCmd) (rest : Bytes), bs = r.encode ++ rest) ∨ ∃ e, Broken bs e := by
  cases bs with
  | nil => exact .inl rfl
  | cons b bs =>
      refine .inr ?_
      by_cases hb : 1 ≤ b.toNat ∧ b.toNat ≤ 4
      · have hop : ∀ r : RawCmd, r.opcode = b.toNat → r.encode = b :: r.fields := fun r hr => by
          rw [RawCmd.encode, hr, UInt8.ofNat_toNat]
        have hcase : b.toNat = 1 ∨ b.toNat = 2 ∨ b.toNat = 3 ∨ b.toNat = 4 := by omega
        rcases (recognizes_readCmd hcase).covers bs with
          ⟨_, rest, _, rfl, r, hr, rfl, -⟩ | ⟨_, _, ⟨r, hr, rfl, -⟩, hpre, hne⟩
        · exact .inl ⟨r, rest, by rw [hop r hr, List.cons_append]⟩
        · refine .inr ⟨_, .inl ⟨rfl, r, ?_, by simp, ?_⟩⟩
          · rw [hop r hr]
            exact List.cons_prefix_cons.mpr ⟨rfl, hpre⟩
          · rw [hop r hr]
            exact fun he => hne (List.cons.inj he).2
      · exact .inr ⟨_, .inr ⟨b, bs, rfl, hb, rfl⟩⟩

/-! ### The whole file -/

/-- Any bytes are records one after another, and then nothing or something broken. -/
theorem exists_records (bs : Bytes) : ∃ (rs : List RawCmd) (tail : Bytes),
    bs = rs.flatMap RawCmd.encode ++ tail ∧ (tail = [] ∨ ∃ e, Broken tail e) := by
  induction hn : bs.length using Nat.strong_induction_on generalizing bs with
  | _ n ih =>
      rcases exists_front bs with rfl | ⟨r, rest, rfl⟩ | h
      · exact ⟨[], [], rfl, .inl rfl⟩
      · obtain ⟨rs, tail, rfl, htail⟩ := ih rest.length (by simp [RawCmd.encode] at hn; omega) rest rfl
        exact ⟨r :: rs, tail, by simp, htail⟩
      · exact ⟨[], bs, rfl, .inr h⟩

/-- The loop goes through the records and on with what follows. -/
theorem foldLog_rawEncode {σ : Type} {f : σ → WalCmd → DbResult σ} (rs : List RawCmd) (s : σ)
    (tail : Bytes) :
    foldLog f s (rs.flatMap RawCmd.encode ++ tail) =
      ((rs.map RawCmd.cmd).foldlM f s >>= fun s' => foldLog f s' tail) := by
  induction rs generalizing s with
  | nil => rfl
  | cons r rs ih =>
      have hb : (r :: rs).flatMap RawCmd.encode ++ tail =
          r.encode ++ (rs.flatMap RawCmd.encode ++ tail) := by simp
      rw [hb, foldLog_step (next_rawEncode r _), List.map_cons, List.foldlM_cons, bind_assoc]
      congr 1
      funext s'
      exact ih s'

theorem readAll_rawEncode (rs : List RawCmd) :
    readAll (rs.flatMap RawCmd.encode) = .ok (rs.map RawCmd.cmd) := by
  have h := foldLog_rawEncode (f := fun cs c => .ok (cs ++ [c])) rs ([] : List WalCmd) []
  rw [foldlM_push, List.append_nil] at h
  exact h

theorem readAll_broken {rs : List RawCmd} {tail : Bytes} {e : DbError} (h : Broken tail e) :
    readAll (rs.flatMap RawCmd.encode ++ tail) = .error e := by
  rw [readAll, foldLog_rawEncode, foldlM_push]
  exact foldLog_error (f := fun cs c => .ok (cs ++ [c])) (s := [] ++ rs.map RawCmd.cmd) (next_broken h)

/-- **The log reader on arbitrary bytes**: it reads to the end exactly the files of whole records, and
fails exactly with the error of what stands behind the last whole record. -/
theorem readAll_iff (bs : Bytes) :
    (∀ cs, readAll bs = .ok cs ↔
        ∃ rs : List RawCmd, bs = rs.flatMap RawCmd.encode ∧ cs = rs.map RawCmd.cmd) ∧
      ∀ e, readAll bs = .error e ↔
        ∃ (rs : List RawCmd) (tail : Bytes), bs = rs.flatMap RawCmd.encode ++ tail ∧ Broken tail e := by
  obtain ⟨rs, tail, rfl, rfl | ⟨e, he⟩⟩ := exists_records bs
  · have hr := readAll_rawEncode rs
    rw [List.append_nil] at *
    refine ⟨fun cs => ⟨fun h => ?_, ?_⟩, fun e => ⟨fun h => ?_, ?_⟩⟩
    · cases hr.symm.trans h
      exact ⟨rs, rfl, rfl⟩
    · rintro ⟨rs', h, rfl⟩
      rw [h, readAll_rawEncode]
    · cases hr.symm.trans h
    · rintro ⟨rs', tail, h, hb⟩
      rw [h, readAll_broken hb]
  · have hr : readAll (rs.flatMap RawCmd.encode ++ tail) = .error e := readAll_broken he
    refine ⟨fun cs => ⟨fun h => ?_, ?_⟩, fun e' => ⟨fun h => ?_, ?_⟩⟩
    · cases hr.symm.trans h
    · rintro ⟨rs', h, rfl⟩
      rw [h, readAll_rawEncode]
    · cases hr.symm.trans h
      exact ⟨rs, tail, rfl, he⟩
    · rintro ⟨rs', tail', h, hb⟩
      rw [h, readAll_broken hb]

end WalReader

end LowDB
