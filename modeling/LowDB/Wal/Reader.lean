import LowDB.Format

/-! # Log records and the log reader

`WalCmd` and its bytes on disk, and `WalReader::next`.  The reader treats the end of the file as
the end of the log only where an opcode is due; inside a record it is an error, so a record cut
anywhere but at its start makes `next` fail (`next_torn`).  A whole record is read back as it was
written, up to `Value.stored` (`next_encode`).

`foldLog` is the loop `while let Some(cmd) = wal.next()?` around a loop body that may fail. -/

namespace LowDB

open Codec

inductive WalCmd where
  | txBegin (tx : UInt64)
  | txCommit (tx : UInt64)
  | op (tx : UInt64) (key : Key) (value : Value)
  | batch (tx : UInt64) (batch : List Entry)
deriving DecidableEq

def txBeginCmd : ℕ := 1
def txCommitCmd : ℕ := 2
def opCmd : ℕ := 3
def batchCmd : ℕ := 4

namespace WalCmd

/-- The bytes of a record, as `WalWriter` writes them when every length fits. -/
def encode : WalCmd → Bytes
  | txBegin tx => be 1 txBeginCmd ++ be 8 tx.toNat
  | txCommit tx => be 1 txCommitCmd ++ be 8 tx.toNat
  | op tx k v => be 1 opCmd ++ (be 8 tx.toNat ++ entryBytes (k, v))
  | batch tx b => be 1 batchCmd ++ (be 2 b.length ++ (be 8 tx.toNat ++ b.flatMap entryBytes))

/-- Every length in the record fits its `u16` field. -/
def Fits : WalCmd → Prop
  | txBegin _ => True
  | txCommit _ => True
  | op _ k v => Entry.Fits (k, v)
  | batch _ b => b.length < 2 ^ 16 ∧ ∀ e ∈ b, e.Fits

instance : DecidablePred Fits := fun c => by cases c <;> unfold Fits <;> infer_instance

/-- The record as the reader returns it. -/
def stored : WalCmd → WalCmd
  | txBegin tx => txBegin tx
  | txCommit tx => txCommit tx
  | op tx k v => op tx k v.stored
  | batch tx b => batch tx (b.map Entry.stored)

/-- The length of `encode`. -/
def diskSize : WalCmd → ℕ
  | txBegin _ => 9
  | txCommit _ => 9
  | op _ k v => 9 + Entry.diskSize (k, v)
  | batch _ b => 11 + (b.map Entry.diskSize).sum

theorem length_flatMap_entryBytes (b : List Entry) :
    (b.flatMap entryBytes).length = (b.map Entry.diskSize).sum := by
  simp [List.length_flatMap]

@[simp] theorem length_encode (c : WalCmd) : c.encode.length = c.diskSize := by
  cases c with
  | txBegin tx => simp [encode, diskSize]
  | txCommit tx => simp [encode, diskSize]
  | op tx k v => simp [encode, diskSize]; omega
  | batch tx b =>
      simp only [encode, List.length_append, length_be, length_flatMap_entryBytes, diskSize]
      omega

@[simp] theorem diskSize_stored (c : WalCmd) : c.stored.diskSize = c.diskSize := by
  cases c with
  | txBegin tx => rfl
  | txCommit tx => rfl
  | op tx k v => simp [stored, diskSize, Entry.diskSize]
  | batch tx b => simp [stored, diskSize, Function.comp_def]

end WalCmd

/-- The bytes of a log. -/
def encodeLog (cmds : List WalCmd) : Bytes := cmds.flatMap WalCmd.encode

/-! ### The reader -/

namespace WalReader

def readKey : Parser DbError Key := parseKey .eof lossyStr

def readValue : Parser DbError Value := parseValue .eof lossyStr

def readKeyValue : Parser DbError Entry := parseEntry .eof lossyStr

/-- `for _ in 0..len { batch.push(self.read_key_value()?) }`. -/
def readBatch : ℕ → Parser DbError (List Entry)
  | 0 => pure []
  | n + 1 => do
    let e ← readKeyValue
    let es ← readBatch n
    return e :: es

/-- The fields of a record whose opcode has been read. -/
def readCmd (cmd : ℕ) : Parser DbError WalCmd :=
  if cmd = txBeginCmd then do
    let tx ← beNat .eof 8
    return .txBegin (UInt64.ofNat tx)
  else if cmd = txCommitCmd then do
    let tx ← beNat .eof 8
    return .txCommit (UInt64.ofNat tx)
  else if cmd = opCmd then do
    let tx ← beNat .eof 8
    let (key, value) ← readKeyValue
    return .op (UInt64.ofNat tx) key value
  else if cmd = batchCmd then do
    let len ← beNat .eof 2
    let tx ← beNat .eof 8
    let batch ← readBatch len
    return .batch (UInt64.ofNat tx) batch
  else throw (.invalidState s!"unexpected WAL command: {cmd}")

/-- `WalReader::next`: the end of the file where an opcode is due is the end of the log. -/
def next (bs : Bytes) : DbResult (Option (WalCmd × Bytes)) :=
  match beNat DbError.eof 1 bs with
  | .error (.io .unexpectedEof) => .ok none
  | .error e => .error e
  | .ok (cmd, rest) => (readCmd cmd rest).map some

/-! #### One record -/

theorem decodes_readBatch {b : List Entry} (h : ∀ e ∈ b, e.Fits) :
    Decodes (readBatch b.length) (b.flatMap entryBytes) (b.map Entry.stored) := by
  induction b with
  | nil => exact Decodes.pure []
  | cons e b ih =>
      have he := decodes_parseEntry (e := .eof) lossyStr_bytes (h e List.mem_cons_self)
      have hb := ih fun x hx => h x (List.mem_cons_of_mem _ hx)
      exact he.bind (hb.map fun es => e.stored :: es)

theorem torn_readBatch {b : List Entry} (h : ∀ e ∈ b, e.Fits) :
    Torn DbError.eof (readBatch b.length) (b.flatMap entryBytes) := by
  induction b with
  | nil => exact torn_nil _ _
  | cons e b ih =>
      have he := h e List.mem_cons_self
      have hb : ∀ x ∈ b, x.Fits := fun x hx => h x (List.mem_cons_of_mem _ hx)
      exact Torn.bind (decodes_parseEntry lossyStr_bytes he) (torn_parseEntry lossyStr_bytes he)
        ((ih hb).map (decodes_readBatch hb) fun es => e.stored :: es)

/-- The opcode of a record. -/
def opcode : WalCmd → ℕ
  | .txBegin _ => txBeginCmd
  | .txCommit _ => txCommitCmd
  | .op _ _ _ => opCmd
  | .batch _ _ => batchCmd

theorem opcode_lt (c : WalCmd) : opcode c < 256 ^ 1 := by
  cases c <;> simp [opcode, txBeginCmd, txCommitCmd, opCmd, batchCmd]

/-- The bytes of a record after its opcode. -/
def fields : WalCmd → Bytes
  | .txBegin tx => be 8 tx.toNat
  | .txCommit tx => be 8 tx.toNat
  | .op tx k v => be 8 tx.toNat ++ entryBytes (k, v)
  | .batch tx b => be 2 b.length ++ (be 8 tx.toNat ++ b.flatMap entryBytes)

theorem encode_eq (c : WalCmd) : c.encode = be 1 (opcode c) ++ fields c := by
  cases c <;> rfl

theorem decodes_readCmd {c : WalCmd} (h : c.Fits) :
    Decodes (readCmd (opcode c)) (fields c) c.stored := by
  cases c with
  | txBegin tx =>
      have hd := (decodes_u64 .eof tx).map fun n => WalCmd.txBegin (UInt64.ofNat n)
      rwa [UInt64.ofNat_toNat] at hd
  | txCommit tx =>
      have hd := (decodes_u64 .eof tx).map fun n => WalCmd.txCommit (UInt64.ofNat n)
      rwa [UInt64.ofNat_toNat] at hd
  | op tx k v =>
      have he := (decodes_parseEntry (e := .eof) lossyStr_bytes h).map fun x =>
        WalCmd.op (UInt64.ofNat tx.toNat) x.1 x.2
      rw [UInt64.ofNat_toNat] at he
      apply (decodes_u64 .eof tx).bind
      rw [UInt64.ofNat_toNat]
      exact he
  | batch tx b =>
      have hb := (decodes_readBatch h.2).map fun es => WalCmd.batch tx es
      refine (decodes_u16 .eof h.1).bind ((decodes_u64 .eof tx).bind ?_)
      rw [UInt64.ofNat_toNat]
      exact hb

theorem torn_readCmd {c : WalCmd} (h : c.Fits) :
    Torn DbError.eof (readCmd (opcode c)) (fields c) := by
  cases c with
  | txBegin tx => exact (torn_beNat _ 8 _).map (decodes_u64 .eof tx) _
  | txCommit tx => exact (torn_beNat _ 8 _).map (decodes_u64 .eof tx) _
  | op tx k v =>
      apply Torn.bind (decodes_u64 .eof tx) (torn_beNat _ 8 _)
      exact (torn_parseEntry lossyStr_bytes h).map (decodes_parseEntry lossyStr_bytes h) _
  | batch tx b =>
      apply Torn.bind (decodes_u16 .eof h.1) (torn_beNat _ 2 _)
      apply Torn.bind (decodes_u64 .eof tx) (torn_beNat _ 8 _)
      exact (torn_readBatch h.2).map (decodes_readBatch h.2) _

theorem next_cons (b : UInt8) (bs : Bytes) : next (b :: bs) = (readCmd b.toNat bs).map some := by
  have h : beNat DbError.eof 1 (b :: bs) = .ok (b.toNat, bs) := by
    simp [beNat, bind_apply, take, nat]
  rw [next, h]

/-- A whole record in front of anything is read back. -/
theorem next_encode {c : WalCmd} (h : c.Fits) (rest : Bytes) :
    next (c.encode ++ rest) = .ok (some (c.stored, rest)) := by
  have ho : beNat DbError.eof 1 (c.encode ++ rest) = .ok (opcode c, fields c ++ rest) := by
    rw [encode_eq, List.append_assoc]
    exact decodes_beNat _ (opcode_lt c) _
  rw [next, ho]
  dsimp only
  rw [decodes_readCmd h rest]
  rfl

/-- A record cut after its first byte and before its last is an error. -/
theorem next_torn {c : WalCmd} (h : c.Fits) {pre : Bytes} (hpre : pre <+: c.encode)
    (hne : pre ≠ []) (hne' : pre ≠ c.encode) : next pre = .error .eof := by
  rw [encode_eq] at hpre hne'
  rcases prefix_append_cases hpre with ⟨hp, hn⟩ | ⟨pre', rfl, hp⟩
  · -- the opcode is one byte, so a proper prefix of it is empty
    have hl := lt_of_le_of_ne hp.length_le fun hl => hn (hp.eq_of_length hl)
    rw [length_be] at hl
    exact absurd (List.length_eq_zero_iff.mp (by omega)) hne
  · have ho := decodes_beNat DbError.eof (opcode_lt c) pre'
    rw [next, ho]
    dsimp only
    rw [torn_readCmd h pre' hp fun he => hne' (by rw [he])]
    rfl

/-! #### Arbitrary bytes -/

theorem grows_readBatch (n : ℕ) :
    Grows (readBatch n) fun b => (b.map Entry.diskSize).sum := by
  induction n with
  | zero =>
      intro bs b rest h
      cases h
      simp
  | succ n ih =>
      intro bs b rest h
      obtain ⟨e, m₁, h₁, h⟩ := bind_eq_ok h
      obtain ⟨es, m₂, h₂, h⟩ := bind_eq_ok h
      cases h
      have e₁ := grows_parseEntry _ _ _ h₁
      have e₂ : m₁.length ≤ (es.map Entry.diskSize).sum + rest.length := ih _ _ _ h₂
      simp only [List.map_cons, List.sum_cons]
      omega

theorem readCmd_grows {cmd : ℕ} {bs rest : Bytes} {c : WalCmd}
    (h : readCmd cmd bs = .ok (c, rest)) : bs.length + 1 ≤ c.diskSize + rest.length := by
  unfold readCmd at h
  split_ifs at h
  · obtain ⟨tx, m₁, h₁, h⟩ := bind_eq_ok h
    cases h
    have := length_of_beNat h₁
    simp only [WalCmd.diskSize]
    omega
  · obtain ⟨tx, m₁, h₁, h⟩ := bind_eq_ok h
    cases h
    have := length_of_beNat h₁
    simp only [WalCmd.diskSize]
    omega
  · obtain ⟨tx, m₁, h₁, h⟩ := bind_eq_ok h
    obtain ⟨e, m₂, h₂, h⟩ := bind_eq_ok h
    cases h
    have := length_of_beNat h₁
    have := grows_parseEntry _ _ _ h₂
    simp only [WalCmd.diskSize, Entry.diskSize] at this ⊢
    omega
  · obtain ⟨len, m₁, h₁, h⟩ := bind_eq_ok h
    obtain ⟨tx, m₂, h₂, h⟩ := bind_eq_ok h
    obtain ⟨b, m₃, h₃, h⟩ := bind_eq_ok h
    cases h
    have := length_of_beNat h₁
    have := length_of_beNat h₂
    have : m₂.length ≤ (b.map Entry.diskSize).sum + rest.length := grows_readBatch _ _ _ _ h₃
    simp only [WalCmd.diskSize]
    omega
  · cases h

/-- The commands read are at least as long, written down, as the bytes they were read from. -/
theorem next_grows {bs rest : Bytes} {c : WalCmd} (h : next bs = .ok (some (c, rest))) :
    bs.length ≤ c.diskSize + rest.length := by
  cases bs with
  | nil => cases h
  | cons b bs =>
      rw [next_cons] at h
      cases hc : readCmd b.toNat bs with
      | error e => rw [hc] at h; cases h
      | ok r =>
          rw [hc] at h
          cases h
          exact readCmd_grows hc

theorem next_eq_none {bs : Bytes} (h : next bs = .ok none) : bs = [] := by
  cases bs with
  | nil => rfl
  | cons b bs =>
      rw [next_cons] at h
      cases hc : readCmd b.toNat bs <;> rw [hc] at h <;> cases h

theorem shrinks_readBatch (n : ℕ) : Shrinks (readBatch n) := by
  induction n with
  | zero => exact shrinks_pure _
  | succ n ih =>
      exact (shrinks_parseEntry _ _).bind fun _ => ih.bind fun _ => shrinks_pure _

theorem shrinks_readCmd (cmd : ℕ) : Shrinks (readCmd cmd) := by
  unfold readCmd
  split_ifs
  · exact (shrinks_beNat _ 8).bind fun _ => shrinks_pure _
  · exact (shrinks_beNat _ 8).bind fun _ => shrinks_pure _
  · exact (shrinks_beNat _ 8).bind fun _ => (shrinks_parseEntry _ _).bind fun _ => shrinks_pure _
  · exact (shrinks_beNat _ 2).bind fun _ => (shrinks_beNat _ 8).bind fun _ =>
      (shrinks_readBatch _).bind fun _ => shrinks_pure _
  · exact shrinks_throw _

/-- A record takes at least its opcode. -/
theorem next_shrinks {bs rest : Bytes} {c : WalCmd} (h : next bs = .ok (some (c, rest))) :
    rest.length < bs.length := by
  cases bs with
  | nil => cases h
  | cons b bs =>
      rw [next_cons] at h
      cases hc : readCmd b.toNat bs with
      | error e => rw [hc] at h; cases h
      | ok r =>
          rw [hc] at h
          cases h
          exact Nat.lt_succ_of_le (shrinks_readCmd _ _ _ _ hc)

/-! ### The reading loop -/

section loop
variable {σ : Type} (f : σ → WalCmd → DbResult σ)

/-- At most `n` rounds of the loop `while let Some(cmd) = wal.next().await? { s = f(s, cmd)? }`. -/
def foldLogN : ℕ → σ → Bytes → DbResult σ
  | 0, _, _ => .error .eof
  | n + 1, s, bs =>
    match next bs with
    | .error e => .error e
    | .ok none => .ok s
    | .ok (some (c, rest)) => do
      let s' ← f s c
      foldLogN n s' rest

/-- The whole loop: a record takes at least one byte, so one round a byte is enough. -/
def foldLog (s : σ) (bs : Bytes) : DbResult σ := foldLogN f (bs.length + 1) s bs

variable {f}

/-- The bound on the rounds is never met. -/
theorem foldLogN_eq {n m : ℕ} {s : σ} {bs : Bytes} (hn : bs.length < n) (hm : bs.length < m) :
    foldLogN f n s bs = foldLogN f m s bs := by
  induction n generalizing m s bs with
  | zero => omega
  | succ n ih =>
      obtain ⟨m, rfl⟩ : ∃ k, m = k + 1 := ⟨m - 1, by omega⟩
      unfold foldLogN
      cases h : next bs with
      | error e => rfl
      | ok r =>
          cases r with
          | none => rfl
          | some r =>
              obtain ⟨c, rest⟩ := r
              have := next_shrinks h
              dsimp only
              congr 1
              funext s'
              exact ih (by omega) (by omega)

theorem foldLog_error {s : σ} {bs : Bytes} {e : DbError} (h : next bs = .error e) :
    foldLog f s bs = .error e := by
  rw [foldLog, foldLogN, h]

theorem foldLog_step {s : σ} {bs rest : Bytes} {c : WalCmd}
    (h : next bs = .ok (some (c, rest))) :
    foldLog f s bs = (f s c >>= fun s' => foldLog f s' rest) := by
  have hs := next_shrinks h
  rw [foldLog, foldLogN, h]
  dsimp only
  congr 1
  funext s'
  exact foldLogN_eq (by omega) (by omega)

/-- What every round keeps holds after the loop, whatever the bytes are. -/
theorem foldLog_inv {I : σ → Prop} (hf : ∀ s c s', I s → f s c = .ok s' → I s') {s s' : σ}
    {bs : Bytes} (h : foldLog f s bs = .ok s') (hs : I s) : I s' := by
  unfold foldLog at h
  generalize bs.length + 1 = n at h
  induction n generalizing s bs with
  | zero => cases h
  | succ n ih =>
      unfold foldLogN at h
      split at h
      · cases h
      · cases h
        exact hs
      · obtain ⟨s₁, h₁, h⟩ := ok_of_bind h
        exact ih (hf _ _ _ hs h₁) h

/-- Over the bytes of a log the loop is a fold over its records. -/
theorem foldLog_encodeLog_append {cmds : List WalCmd} (h : ∀ c ∈ cmds, c.Fits) (s : σ)
    (rest : Bytes) :
    foldLog f s (encodeLog cmds ++ rest) =
      ((cmds.map WalCmd.stored).foldlM f s >>= fun s' => foldLog f s' rest) := by
  induction cmds generalizing s with
  | nil => rfl
  | cons c cmds ih =>
      have hc := h c List.mem_cons_self
      have e : encodeLog (c :: cmds) ++ rest = c.encode ++ (encodeLog cmds ++ rest) := by
        simp [encodeLog]
      rw [e, foldLog_step (next_encode hc _), List.map_cons, List.foldlM_cons, bind_assoc]
      congr 1
      funext s'
      exact ih (fun x hx => h x (List.mem_cons_of_mem _ hx)) s'

theorem foldLog_encodeLog {cmds : List WalCmd} (h : ∀ c ∈ cmds, c.Fits) (s : σ) :
    foldLog f s (encodeLog cmds) = (cmds.map WalCmd.stored).foldlM f s := by
  have hf := foldLog_encodeLog_append (f := f) h s []
  rw [List.append_nil] at hf
  rw [hf]
  exact bind_pure _

end loop

/-- All records of a log, in order. -/
def readAll (bs : Bytes) : DbResult (List WalCmd) :=
  foldLog (fun cs c => .ok (cs ++ [c])) [] bs

theorem foldlM_push (acc cs : List WalCmd) :
    cs.foldlM (fun cs c => (.ok (cs ++ [c]) : DbResult (List WalCmd))) acc = .ok (acc ++ cs) := by
  induction cs generalizing acc with
  | nil => simp; rfl
  | cons c cs ih =>
      rw [List.foldlM_cons]
      exact (ih (acc ++ [c])).trans (by simp)

/-- **Round trip**: a log of records that fit is read back record by record. -/
theorem readAll_encodeLog {cmds : List WalCmd} (h : ∀ c ∈ cmds, c.Fits) :
    readAll (encodeLog cmds) = .ok (cmds.map WalCmd.stored) := by
  rw [readAll, foldLog_encodeLog h, foldlM_push, List.nil_append]

theorem foldLogN_of_push {n : ℕ} {acc cs : List WalCmd} {bs : Bytes}
    (h : foldLogN (fun cs c => .ok (cs ++ [c])) n acc bs = .ok cs) :
    ∃ rest, cs = acc ++ rest ∧
      ∀ {σ : Type} (f : σ → WalCmd → DbResult σ) (s : σ), foldLogN f n s bs = rest.foldlM f s := by
  induction n generalizing acc bs with
  | zero => cases h
  | succ n ih =>
      rw [foldLogN] at h
      cases hn : next bs with
      | error e => rw [hn] at h; cases h
      | ok r =>
          rw [hn] at h
          cases r with
          | none =>
              cases h
              exact ⟨[], (List.append_nil _).symm, fun f s => by rw [foldLogN, hn]; rfl⟩
          | some r =>
              obtain ⟨rest, hcs, hf⟩ := @ih (acc ++ [r.1]) _ h
              refine ⟨r.1 :: rest, by rw [hcs, List.append_assoc, List.singleton_append], ?_⟩
              intro σ f s
              rw [foldLogN, hn, List.foldlM_cons]
              dsimp only
              congr 1
              funext s'
              exact hf f s'

/-- Over a log that can be read the loop is a fold over its records. -/
theorem foldLog_of_readAll {σ : Type} {f : σ → WalCmd → DbResult σ} {bs : Bytes} {cs : List WalCmd}
    (h : readAll bs = .ok cs) (s : σ) : foldLog f s bs = cs.foldlM f s := by
  obtain ⟨rest, hcs, hf⟩ := foldLogN_of_push h
  rw [List.nil_append] at hcs
  rw [foldLog, hf, hcs]

theorem foldLogN_push_grows {n : ℕ} {acc cs : List WalCmd} {bs : Bytes}
    (h : foldLogN (fun cs c => .ok (cs ++ [c])) n acc bs = .ok cs) :
    (acc.map WalCmd.diskSize).sum + bs.length ≤ (cs.map WalCmd.diskSize).sum := by
  induction n generalizing acc bs with
  | zero => cases h
  | succ n ih =>
      rw [foldLogN] at h
      cases hn : next bs with
      | error e => rw [hn] at h; cases h
      | ok r =>
          rw [hn] at h
          cases r with
          | none =>
              cases h
              simp [next_eq_none hn]
          | some r =>
              obtain ⟨c, rest⟩ := r
              have hi := @ih (acc ++ [c]) _ h
              have hg := next_grows hn
              simp only [List.map_append, List.map_cons, List.map_nil, List.sum_append,
                List.sum_cons, List.sum_nil] at hi
              omega

/-- The records read from a file are at least as long, written down, as the file. -/
theorem readAll_grows {bs : Bytes} {cs : List WalCmd} (h : readAll bs = .ok cs) :
    bs.length ≤ (cs.map WalCmd.diskSize).sum := by
  have hg := foldLogN_push_grows h
  rwa [List.map_nil, List.sum_nil, Nat.zero_add] at hg

end WalReader

end LowDB
