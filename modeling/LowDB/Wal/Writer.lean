import LowDB.Wal.Reader

/-! # The log writer

`WalWriter::append`, `append_batch` and `append_kv` on one writer.  The bytes of a record go into
a `BufWriter` field by field, and a length that does not fit its `u16` field is only noticed when
that field is due: the call then returns `InvalidInt` and what it has already written stays in
front of the next record.  `written c` is what a call leaves behind, whether it succeeds or not
(`run_call`); it is the whole record when the record fits, and empty for a refused record only
when the entry count of a batch is what does not fit (`written_eq_nil_iff`).

The main result, `intact_iff`, is that the file decodes to the accepted records exactly as long as
no accepted record follows a record refused for any other reason. -/

namespace LowDB

open Codec

/-! ### The buffered file -/

/-- `BufWriter<File>` over a file opened for appending: the bytes the file holds and the bytes
still buffered. -/
structure BufWriter where
  file : Bytes
  buf : Bytes
deriving DecidableEq

/-- The default capacity of a `BufWriter`. -/
def bufCapacity : ℕ := 8 * 1024

namespace BufWriter

/-- Everything written, flushed or not. -/
def stream (w : BufWriter) : Bytes := w.file ++ w.buf

def flushBuf (w : BufWriter) : BufWriter := ⟨w.file ++ w.buf, []⟩

/-- `write_all`: spill a buffer that would overflow, and bypass it for a large write. -/
def writeAll (w : BufWriter) (data : Bytes) : BufWriter :=
  let w := if bufCapacity < w.buf.length + data.length then w.flushBuf else w
  if bufCapacity ≤ data.length then ⟨w.file ++ data, w.buf⟩ else ⟨w.file, w.buf ++ data⟩

@[simp] theorem stream_writeAll (w : BufWriter) (data : Bytes) :
    (w.writeAll data).stream = w.stream ++ data := by
  unfold writeAll
  by_cases hw : bufCapacity < w.buf.length + data.length
  · rw [if_pos hw]
    by_cases hb : bufCapacity ≤ data.length <;> simp [hb, stream, flushBuf]
  · rw [if_neg hw]
    by_cases hb : bufCapacity ≤ data.length
    · -- a write that bypasses the buffer without spilling it has found it empty
      have hnil : w.buf = [] := List.length_eq_zero_iff.mp (by omega)
      simp [hb, stream, hnil]
    · simp [hb, stream]

end BufWriter

/-- Writing code: it may fail, and what it wrote before failing stays written. -/
abbrev Write (α : Type) := ExceptT DbError (StateM BufWriter) α

namespace WalWriter

def writeAll (data : Bytes) : Write Unit := modify fun w => w.writeAll data

/-- `writer.flush().await?; file.sync_all().await?`, on a disk that does not fail. -/
def flush : Write Unit := modify BufWriter.flushBuf

/-- `let len: u16 = n.try_into()?`. -/
def lenU16 (n : ℕ) : Write ℕ := ExceptT.mk (pure (tryU16 n))

def appendTxBegin (tx : UInt64) : Write Unit := do
  writeAll (be 1 txBeginCmd)
  writeAll (be 8 tx.toNat)

def appendTxCommit (tx : UInt64) : Write Unit := do
  writeAll (be 1 txCommitCmd)
  writeAll (be 8 tx.toNat)

def appendValue : Value → Write Unit
  | .set s => do
    let len ← lenU16 s.len
    writeAll (be 2 len)
    writeAll s.bytes
  | .delete => writeAll (be 2 0)

def appendKeyValue (key : Key) (value : Value) : Write Unit := do
  let len ← lenU16 key.user.len
  writeAll (be 2 len)
  writeAll key.user.bytes
  writeAll (be 8 key.seq.toNat)
  appendValue value

def appendOp (tx : UInt64) (key : Key) (value : Value) : Write Unit := do
  writeAll (be 1 opCmd)
  writeAll (be 8 tx.toNat)
  appendKeyValue key value

/-- `for (k, v) in batch { append_key_value(writer, k, v).await?; }`. -/
def appendEntries : List Entry → Write Unit
  | [] => pure ()
  | e :: es => do
    appendKeyValue e.1 e.2
    appendEntries es

def appendBatch (tx : UInt64) (batch : List Entry) : Write Unit := do
  let len ← lenU16 batch.length
  writeAll (be 1 batchCmd)
  writeAll (be 2 len)
  writeAll (be 8 tx.toNat)
  appendEntries batch

/-- `WalWriter::append`. -/
def append : WalCmd → Write Unit
  | .txBegin tx => do
    appendTxBegin tx
    flush
  | .txCommit tx => do
    appendTxCommit tx
    flush
  | .op tx key value => do
    appendOp tx key value
    flush
  | .batch tx batch => do
    appendBatch tx batch
    flush

/-! ### What a piece of writing code leaves behind -/

/-- From any writer, `m` ends with the result `r` and has written exactly `out`. -/
def Writes (m : Write Unit) (r : DbResult Unit) (out : Bytes) : Prop :=
  ∀ w, ∃ w', m.run.run w = (r, w') ∧ w'.stream = w.stream ++ out

theorem writes_pure : Writes (pure ()) (.ok ()) [] := fun w => ⟨w, rfl, by simp⟩

theorem writes_writeAll (data : Bytes) : Writes (writeAll data) (.ok ()) data :=
  fun w => ⟨_, rfl, by simp⟩

theorem Writes.seq {m m' : Write Unit} {r : DbResult Unit} {out out' : Bytes}
    (h : Writes m (.ok ()) out) (h' : Writes m' r out') :
    Writes (m >>= fun _ => m') r (out ++ out') := by
  intro w
  obtain ⟨w₁, e₁, s₁⟩ := h w
  obtain ⟨w₂, e₂, s₂⟩ := h' w₁
  refine ⟨w₂, ?_, by rw [s₂, s₁, List.append_assoc]⟩
  simp only [ExceptT.run_bind, StateT.run_bind, e₁]
  exact e₂

theorem Writes.stop {m m' : Write Unit} {e : DbError} {out : Bytes}
    (h : Writes m (.error e) out) : Writes (m >>= fun _ => m') (.error e) out := by
  intro w
  obtain ⟨w₁, e₁, s₁⟩ := h w
  refine ⟨w₁, ?_, s₁⟩
  simp only [ExceptT.run_bind, StateT.run_bind, e₁]
  rfl

theorem Writes.lenU16_ok {n : ℕ} {f : ℕ → Write Unit} {r : DbResult Unit} {out : Bytes}
    (hn : n < 2 ^ 16) (h : Writes (f n) r out) : Writes (lenU16 n >>= f) r out := by
  intro w
  obtain ⟨w', e, s⟩ := h w
  refine ⟨w', ?_, s⟩
  rw [← e]
  simp only [lenU16, tryU16, if_pos hn]
  rfl

theorem writes_lenU16_error {n : ℕ} {f : ℕ → Write Unit} (hn : ¬ n < 2 ^ 16) :
    Writes (lenU16 n >>= f) (.error .tryFromInt) [] := by
  intro w
  refine ⟨w, ?_, by simp⟩
  simp only [lenU16, tryU16, if_neg hn]
  rfl

/-! ### The bytes a call leaves in the stream -/

/-- What `append_key_value` writes: it stops at the first length that does not fit. -/
def writtenEntry (e : Entry) : Bytes :=
  if e.1.Fits then (if e.2.Fits then entryBytes e else keyBytes e.1) else []

def writtenEntries : List Entry → Bytes
  | [] => []
  | e :: es => if e.Fits then entryBytes e ++ writtenEntries es else writtenEntry e

/-- What a call for the record `c` writes. -/
def written : WalCmd → Bytes
  | .op tx k v => be 1 opCmd ++ (be 8 tx.toNat ++ writtenEntry (k, v))
  | .batch tx b =>
    if b.length < 2 ^ 16 then
      be 1 batchCmd ++ (be 2 b.length ++ (be 8 tx.toNat ++ writtenEntries b))
    else []
  | c => c.encode

/-- The result of a call for the record `c`. -/
def outcome (c : WalCmd) : DbResult Unit := if c.Fits then .ok () else .error .tryFromInt

theorem writes_appendValue {v : Value} (h : v.Fits) :
    Writes (appendValue v) (.ok ()) (valueBytes v) := by
  cases v with
  | delete => exact writes_writeAll _
  | set s => exact .lenU16_ok h ((writes_writeAll _).seq (writes_writeAll _))

theorem writes_appendValue_error {v : Value} (h : ¬ v.Fits) :
    Writes (appendValue v) (.error .tryFromInt) [] := by
  cases v with
  | delete => exact absurd (by decide) h
  | set s => exact writes_lenU16_error h

theorem writes_key {k : Key} {m : Write Unit} {r : DbResult Unit} {out : Bytes}
    (hm : Writes m r out) :
    Writes (do
      writeAll (be 2 k.user.len)
      writeAll k.user.bytes
      writeAll (be 8 k.seq.toNat)
      m) r (keyBytes k ++ out) := by
  have h := (writes_writeAll (be 2 k.user.len)).seq
    ((writes_writeAll k.user.bytes).seq ((writes_writeAll (be 8 k.seq.toNat)).seq hm))
  simpa only [keyBytes, List.append_assoc] using h

theorem writes_appendKeyValue (e : Entry) :
    Writes (appendKeyValue e.1 e.2) (if e.Fits then .ok () else .error .tryFromInt)
      (writtenEntry e) := by
  by_cases hk : e.1.Fits
  · by_cases hv : e.2.Fits
    · rw [if_pos ⟨hk, hv⟩, writtenEntry, if_pos hk, if_pos hv]
      exact .lenU16_ok hk (writes_key (writes_appendValue hv))
    · rw [if_neg fun h => hv h.2, writtenEntry, if_pos hk, if_neg hv]
      have h := writes_key (k := e.1) (writes_appendValue_error hv)
      rw [List.append_nil] at h
      exact .lenU16_ok hk h
  · rw [if_neg fun h => hk h.1, writtenEntry, if_neg hk]
    exact writes_lenU16_error hk

theorem writes_appendEntries (es : List Entry) :
    Writes (appendEntries es) (if ∀ e ∈ es, e.Fits then .ok () else .error .tryFromInt)
      (writtenEntries es) := by
  induction es with
  | nil =>
      rw [if_pos fun e he => absurd he List.not_mem_nil]
      exact writes_pure
  | cons e es ih =>
      have he := writes_appendKeyValue e
      by_cases hf : e.Fits
      · rw [if_pos hf] at he
        have hw : writtenEntry e = entryBytes e := by rw [writtenEntry, if_pos hf.1, if_pos hf.2]
        rw [hw] at he
        simp only [List.forall_mem_cons, hf, true_and, writtenEntries, if_true]
        exact he.seq ih
      · rw [if_neg hf] at he
        have h : ¬ ∀ x ∈ e :: es, x.Fits := fun h => hf (h e List.mem_cons_self)
        rw [if_neg h, writtenEntries, if_neg hf]
        exact he.stop

/-- What the body of `append` does before it flushes. -/
def appendCmd : WalCmd → Write Unit
  | .txBegin tx => appendTxBegin tx
  | .txCommit tx => appendTxCommit tx
  | .op tx key value => appendOp tx key value
  | .batch tx batch => appendBatch tx batch

theorem append_eq (c : WalCmd) : append c = (do appendCmd c; flush) := by cases c <;> rfl

theorem writes_appendCmd (c : WalCmd) : Writes (appendCmd c) (outcome c) (written c) := by
  cases c with
  | txBegin tx => exact (writes_writeAll _).seq (writes_writeAll _)
  | txCommit tx => exact (writes_writeAll _).seq (writes_writeAll _)
  | op tx k v =>
      exact (writes_writeAll _).seq ((writes_writeAll _).seq (writes_appendKeyValue (k, v)))
  | batch tx b =>
      by_cases hb : b.length < 2 ^ 16
      · have h := (writes_writeAll (be 1 batchCmd)).seq ((writes_writeAll (be 2 b.length)).seq
          ((writes_writeAll (be 8 tx.toNat)).seq (writes_appendEntries b)))
        have ho : outcome (.batch tx b) =
            if ∀ e ∈ b, e.Fits then .ok () else .error .tryFromInt := by
          simp only [outcome, WalCmd.Fits, hb, true_and]
        rw [ho, written, if_pos hb]
        exact .lenU16_ok hb h
      · rw [outcome, if_neg fun h => hb h.1, written, if_neg hb]
        exact writes_lenU16_error hb

theorem writtenEntries_of_fits {es : List Entry} (h : ∀ e ∈ es, e.Fits) :
    writtenEntries es = es.flatMap entryBytes := by
  induction es with
  | nil => rfl
  | cons e es ih =>
      rw [writtenEntries, if_pos (h e List.mem_cons_self),
        ih fun x hx => h x (List.mem_cons_of_mem _ hx)]
      rfl

theorem written_of_fits {c : WalCmd} (h : c.Fits) : written c = c.encode := by
  cases c with
  | txBegin tx => rfl
  | txCommit tx => rfl
  | op tx k v => rw [written, writtenEntry, if_pos h.1, if_pos h.2]; rfl
  | batch tx b => rw [written, if_pos h.1, writtenEntries_of_fits h.2]; rfl

/-- The record is a batch with more entries than a `u16` counts. -/
def Overcounted : WalCmd → Prop
  | .batch _ b => 2 ^ 16 ≤ b.length
  | _ => False

instance : DecidablePred Overcounted
  | .batch _ b => inferInstanceAs (Decidable (2 ^ 16 ≤ b.length))
  | .txBegin _ => instDecidableFalse
  | .txCommit _ => instDecidableFalse
  | .op _ _ _ => instDecidableFalse

/-- A refused call leaves nothing behind exactly when it is refused for the entry count. -/
theorem written_eq_nil_iff {c : WalCmd} : written c = [] ↔ Overcounted c := by
  cases c with
  | txBegin tx => simp [written, WalCmd.encode, Overcounted, be]
  | txCommit tx => simp [written, WalCmd.encode, Overcounted, be]
  | op tx k v => simp [written, Overcounted, be]
  | batch tx b =>
      by_cases hb : b.length < 2 ^ 16
      · rw [written, if_pos hb]
        simp only [Overcounted, be, List.append_eq_nil_iff, reduceCtorEq, and_false, false_and,
          false_iff]
        omega
      · rw [written, if_neg hb]
        exact iff_of_true rfl (Nat.le_of_not_lt hb)

/-! ### Calls on one writer -/

/-- A call of one of the three appending methods. -/
inductive Call where
  | append (cmd : WalCmd)
  | appendBatch (tx : UInt64) (batch : List Entry)
  | appendKv (tx : UInt64) (key : Key) (value : Value)

namespace Call

/-- The record the call is to append. -/
def cmd : Call → WalCmd
  | append c => c
  | appendBatch tx b => .batch tx b
  | appendKv tx k v => .op tx k v

def code : Call → Write Unit
  | append c => WalWriter.append c
  | appendBatch tx b => do
    WalWriter.appendBatch tx b
    flush
  | appendKv tx k v => do
    appendOp tx k v
    flush

/-- The three methods do the same for the same record. -/
theorem code_eq (c : Call) : c.code = WalWriter.append c.cmd := by cases c <;> rfl

/-- The result of the call on the writer `w`, and the writer afterwards. -/
def run (c : Call) (w : BufWriter) : DbResult Unit × BufWriter := c.code.run.run w

end Call

/-- An accepted call ends with the whole stream in the file, the new record at its end. -/
theorem run_of_fits {c : Call} (h : c.cmd.Fits) (w : BufWriter) :
    c.run w = (.ok (), ⟨w.stream ++ c.cmd.encode, []⟩) := by
  obtain ⟨w', e, s⟩ := writes_appendCmd c.cmd w
  rw [outcome, if_pos h] at e
  rw [written_of_fits h] at s
  rw [Call.run, Call.code_eq, append_eq]
  simp only [ExceptT.run_bind, StateT.run_bind, e]
  rw [← s]
  rfl

/-- A refused call leaves what it wrote in the stream. -/
theorem run_of_not_fits {c : Call} (h : ¬ c.cmd.Fits) (w : BufWriter) :
    ∃ w', c.run w = (.error .tryFromInt, w') ∧ w'.stream = w.stream ++ written c.cmd := by
  obtain ⟨w', e, s⟩ := writes_appendCmd c.cmd w
  rw [outcome, if_neg h] at e
  refine ⟨w', ?_, s⟩
  rw [Call.run, Call.code_eq, append_eq]
  simp only [ExceptT.run_bind, StateT.run_bind, e]
  rfl

/-- A sequence of calls on the writer `w`: the writer afterwards, and the records of the calls
that succeeded, in order. -/
def runCalls : List Call → BufWriter → BufWriter × List WalCmd
  | [], w => (w, [])
  | c :: cs, w =>
    match c.run w with
    | (.ok (), w') => ((runCalls cs w').1, c.cmd :: (runCalls cs w').2)
    | (.error _, w') => runCalls cs w'

/-- A writer on a new log. -/
def newLog : BufWriter := ⟨[], []⟩

theorem runCalls_cons_of_fits {c : Call} (h : c.cmd.Fits) (cs : List Call) (w : BufWriter) :
    runCalls (c :: cs) w =
      ((runCalls cs ⟨w.stream ++ c.cmd.encode, []⟩).1,
        c.cmd :: (runCalls cs ⟨w.stream ++ c.cmd.encode, []⟩).2) := by
  rw [runCalls, run_of_fits h]

theorem runCalls_cons_of_not_fits {c : Call} (h : ¬ c.cmd.Fits) (cs : List Call)
    (w : BufWriter) :
    ∃ w', w'.stream = w.stream ++ written c.cmd ∧ runCalls (c :: cs) w = runCalls cs w' := by
  obtain ⟨w', e, s⟩ := run_of_not_fits h w
  exact ⟨w', s, by rw [runCalls, e]⟩

theorem stream_runCalls (cs : List Call) (w : BufWriter) :
    (runCalls cs w).1.stream = w.stream ++ cs.flatMap fun c => written c.cmd := by
  induction cs generalizing w with
  | nil => simp [runCalls]
  | cons c cs ih =>
      by_cases h : c.cmd.Fits
      · rw [runCalls_cons_of_fits h, ih, List.flatMap_cons, written_of_fits h]
        simp [BufWriter.stream]
      · obtain ⟨w', s, e⟩ := runCalls_cons_of_not_fits h cs w
        rw [e, ih, s, List.flatMap_cons, List.append_assoc]

/-- The successful calls are those whose record fits. -/
theorem runCalls_snd (cs : List Call) (w : BufWriter) :
    (runCalls cs w).2 = (cs.map Call.cmd).filter fun c => c.Fits := by
  induction cs generalizing w with
  | nil => rfl
  | cons c cs ih =>
      by_cases h : c.cmd.Fits
      · rw [runCalls_cons_of_fits h, ih, List.map_cons, List.filter_cons_of_pos (by simpa using h)]
      · obtain ⟨w', _, e⟩ := runCalls_cons_of_not_fits h cs w
        rw [e, ih, List.map_cons, List.filter_cons_of_neg (by simpa using h)]

theorem runCalls_append (cs ds : List Call) (w : BufWriter) :
    (runCalls (cs ++ ds) w).1 = (runCalls ds (runCalls cs w).1).1 := by
  induction cs generalizing w with
  | nil => rfl
  | cons c cs ih =>
      by_cases h : c.cmd.Fits
      · rw [List.cons_append, runCalls_cons_of_fits h, runCalls_cons_of_fits h]
        exact ih _
      · obtain ⟨w', e, s⟩ := run_of_not_fits h w
        simp only [List.cons_append, runCalls, e]
        exact ih _

/-- After a successful call the file holds everything the calls so far have written. -/
theorem file_runCalls {pre : List Call} {c : Call} (h : c.cmd.Fits) :
    (runCalls (pre ++ [c]) newLog).1.file = (pre ++ [c]).flatMap fun c => written c.cmd := by
  rw [runCalls_append, runCalls_cons_of_fits h, stream_runCalls]
  simp [runCalls, newLog, BufWriter.stream, written_of_fits h]

/-- After each successful call of the sequence, the file decodes to the records of the successful
calls so far, in order, and then ends. -/
def Intact (cs : List Call) : Prop :=
  ∀ pre c, pre ++ [c] <+: cs → (c.run (runCalls pre newLog).1).1 = .ok () →
    WalReader.readAll (runCalls (pre ++ [c]) newLog).1.file =
      .ok ((runCalls (pre ++ [c]) newLog).2.map WalCmd.stored)

theorem run_ok_iff {c : Call} {w : BufWriter} : (c.run w).1 = .ok () ↔ c.cmd.Fits := by
  by_cases h : c.cmd.Fits
  · simp [run_of_fits h, h]
  · obtain ⟨w', e, _⟩ := run_of_not_fits h w
    simp [e, h]

/-- Calls whose refusals leave nothing behind write exactly the records that fit. -/
theorem flatMap_written_eq {cs : List Call} (h : ∀ c ∈ cs, ¬ c.cmd.Fits → Overcounted c.cmd) :
    (cs.flatMap fun c => written c.cmd) =
      encodeLog ((cs.map Call.cmd).filter fun c => c.Fits) := by
  induction cs with
  | nil => rfl
  | cons c cs ih =>
      have hc := h c List.mem_cons_self
      have ht := ih fun d hd => h d (List.mem_cons_of_mem _ hd)
      by_cases hf : c.cmd.Fits
      · rw [List.flatMap_cons, ht, List.map_cons, List.filter_cons_of_pos (by simpa using hf),
          written_of_fits hf]
        rfl
      · rw [List.flatMap_cons, ht, List.map_cons, List.filter_cons_of_neg (by simpa using hf),
          written_eq_nil_iff.mpr (hc hf), List.nil_append]

/-- Counting bytes: the refused calls write on top of the records that fit. -/
theorem sum_diskSize_le (cs : List Call) :
    (((cs.map Call.cmd).filter fun c => c.Fits).map WalCmd.diskSize).sum ≤
      (cs.flatMap fun c => written c.cmd).length := by
  induction cs with
  | nil => simp
  | cons c cs ih =>
      by_cases hf : c.cmd.Fits
      · rw [List.map_cons, List.filter_cons_of_pos (by simpa using hf), List.map_cons,
          List.sum_cons, List.flatMap_cons, List.length_append, written_of_fits hf,
          WalCmd.length_encode]
        omega
      · rw [List.map_cons, List.filter_cons_of_neg (by simpa using hf), List.flatMap_cons,
          List.length_append]
        omega

theorem sum_diskSize_lt {cs : List Call} {c : Call} (hc : c ∈ cs) (hf : ¬ c.cmd.Fits)
    (ho : ¬ Overcounted c.cmd) :
    (((cs.map Call.cmd).filter fun c => c.Fits).map WalCmd.diskSize).sum <
      (cs.flatMap fun c => written c.cmd).length := by
  obtain ⟨l, r, rfl⟩ := List.append_of_mem hc
  have hl := sum_diskSize_le l
  have hr := sum_diskSize_le r
  have hw : 0 < (written c.cmd).length :=
    List.length_pos_of_ne_nil fun h => ho (written_eq_nil_iff.mp h)
  have hfilter : (c.cmd :: r.map Call.cmd).filter (fun c => c.Fits) =
      (r.map Call.cmd).filter fun c => c.Fits := List.filter_cons_of_neg (by simpa using hf)
  simp only [List.map_append, List.map_cons, List.filter_append, List.sum_append,
    List.flatMap_append, List.flatMap_cons, List.length_append, hfilter]
  omega

/-- **The log stays intact exactly when** no accepted record follows a record that was refused
after part of it had been written. -/
theorem intact_iff (cs : List Call) :
    Intact cs ↔
      cs.Pairwise fun c d => ¬ c.cmd.Fits → d.cmd.Fits → Overcounted c.cmd := by
  constructor
  · intro h
    -- the bytes of a record refused half-way are left over when its successors are decoded
    refine List.pairwise_iff_forall_sublist.mpr fun {c d} hcd hc hd => ?_
    by_contra ho
    obtain ⟨r₁, r₂, rfl, hmem, hd'⟩ := List.cons_sublist_iff.mp hcd
    obtain ⟨s, post, rfl⟩ := List.append_of_mem (List.singleton_sublist.mp hd')
    have hread := h (r₁ ++ s) d ⟨post, by simp⟩ (run_ok_iff.mpr hd)
    have hgrow := WalReader.readAll_grows hread
    have hsize : WalCmd.diskSize ∘ WalCmd.stored = WalCmd.diskSize :=
      funext WalCmd.diskSize_stored
    rw [file_runCalls hd, runCalls_snd, List.map_map, hsize] at hgrow
    have hlt := sum_diskSize_lt (List.mem_append_left [d] (List.mem_append_left s hmem)) hc ho
    omega
  · intro h pre c hpre hok
    have hc := run_ok_iff.mp hok
    have hover : ∀ b ∈ pre ++ [c], ¬ b.cmd.Fits → Overcounted b.cmd := by
      intro b hb hf
      rcases List.mem_append.mp hb with hb | hb
      · have hp := List.Pairwise.sublist hpre.sublist h
        exact (List.pairwise_append.mp hp).2.2 b hb c (List.mem_singleton_self c) hf hc
      · rw [List.mem_singleton.mp hb] at hf
        exact absurd hc hf
    rw [file_runCalls hc, runCalls_snd, flatMap_written_eq hover]
    exact WalReader.readAll_encodeLog fun x hx => by simpa using (List.mem_filter.mp hx).2

/-- A key one byte too long for its `u16` length. -/
def longKey : Key := ⟨.repeated 65536 0x6b, 1⟩

theorem longKey_not_fits : ¬ longKey.Fits := by
  have hlen : longKey.user.len = 65536 := Str.len_repeated 65536 0x6b rfl
  rw [Key.Fits, hlen]
  omega

/-- A refused `append_kv` and then an accepted `append`: the second record is swallowed as the
key of the first, and the log ends in the middle of it. -/
theorem not_intact_longKey :
    ¬ Intact [.appendKv 1 longKey (.set (.ascii [0x76])), .append (.txBegin 1)] := by
  intro h
  have hf : (Call.append (.txBegin 1)).cmd.Fits := trivial
  have hread := h [.appendKv 1 longKey (.set (.ascii [0x76]))] (.append (.txBegin 1))
    (List.prefix_refl _) (run_ok_iff.mpr hf)
  have hw : written (Call.appendKv 1 longKey (.set (.ascii [0x76]))).cmd =
      be 1 opCmd ++ be 8 1 := by
    simp [Call.cmd, written, writtenEntry, longKey_not_fits]
  rw [file_runCalls hf] at hread
  simp only [List.cons_append, List.nil_append, List.flatMap_cons, List.flatMap_nil, hw,
    List.append_nil] at hread
  have herr : WalReader.readAll ((be 1 opCmd ++ be 8 1) ++ written (.txBegin 1)) =
      .error .eof := by decide
  rw [show (Call.append (.txBegin 1)).cmd = .txBegin 1 from rfl, herr] at hread
  cases hread

/-! ### Reading back what was accepted -/

/-- The versions a record carries. -/
def entriesOf : WalCmd → List Entry
  | .txBegin _ => []
  | .txCommit _ => []
  | .op _ k v => [(k, v)]
  | .batch _ b => b

theorem map_eq_self_iff {α : Type} {f : α → α} {l : List α} : l.map f = l ↔ ∀ x ∈ l, f x = x := by
  have h := List.map_eq_map_iff (l := l) (f := f) (g := id)
  rwa [List.map_id] at h

theorem stored_eq_self_iff {v : Value} : v.stored = v ↔ v ≠ .set .empty := by
  cases v with
  | delete => simp [Value.stored]
  | set s => by_cases h : s.len = 0 <;> simp [Value.stored, h, Str.eq_empty_iff]

/-- A record is read back as it was appended exactly if it carries no empty value. -/
theorem cmd_stored_eq_self_iff {c : WalCmd} :
    c.stored = c ↔ ∀ e ∈ entriesOf c, e.2 ≠ .set .empty := by
  have hb : ∀ b : List Entry, b.map Entry.stored = b ↔ ∀ e ∈ b, e.2 ≠ .set .empty := by
    intro b
    rw [map_eq_self_iff]
    apply forall₂_congr
    intro e _
    rw [← stored_eq_self_iff, Entry.stored, Prod.ext_iff]
    exact and_iff_right rfl
  cases c with
  | txBegin tx => simp [WalCmd.stored, entriesOf]
  | txCommit tx => simp [WalCmd.stored, entriesOf]
  | op tx k v => simp [WalCmd.stored, entriesOf, stored_eq_self_iff]
  | batch tx b => simp [WalCmd.stored, entriesOf, hb]

/-- The file after calls that all succeeded. -/
theorem file_runCalls_of_fits {cs : List Call} (h : ∀ c ∈ cs, c.cmd.Fits) :
    (runCalls cs newLog).1.file = encodeLog (cs.map Call.cmd) := by
  rcases List.eq_nil_or_concat' cs with rfl | ⟨pre, c, rfl⟩
  · rfl
  · rw [file_runCalls (h c (by simp)), flatMap_written_eq fun d hd hf => absurd (h d hd) hf]
    congr 1
    apply List.filter_eq_self.mpr
    intro x hx
    obtain ⟨d, hd, rfl⟩ := List.mem_map.mp hx
    exact decide_eq_true (h d hd)

/-- **The log reads back as it was appended**, when every call succeeded, exactly if no value in it
is empty. -/
theorem readAll_runCalls_iff (cs : List Call) (h : (runCalls cs newLog).2 = cs.map Call.cmd) :
    WalReader.readAll (runCalls cs newLog).1.file = .ok (cs.map Call.cmd) ↔
      ∀ c ∈ cs, ∀ e ∈ entriesOf c.cmd, e.2 ≠ .set .empty := by
  have hfit : ∀ c ∈ cs, c.cmd.Fits := by
    intro c hc
    rw [runCalls_snd, List.filter_eq_self] at h
    exact of_decide_eq_true (h c.cmd (List.mem_map_of_mem hc))
  have hfits : ∀ x ∈ cs.map Call.cmd, x.Fits := by
    intro x hx
    obtain ⟨c, hc, rfl⟩ := List.mem_map.mp hx
    exact hfit c hc
  rw [file_runCalls_of_fits hfit, WalReader.readAll_encodeLog hfits, Except.ok.injEq,
    map_eq_self_iff]
  simp only [List.mem_map, forall_exists_index, and_imp, forall_apply_eq_imp_iff₂,
    cmd_stored_eq_self_iff]

/-- A transaction of a single write and a batch. -/
def transaction : List Call :=
  [.append (.txBegin 1), .appendKv 1 ⟨.ascii [0x6b], 1⟩ (.set (.ascii [0x76])),
    .appendBatch 1 [(⟨.ascii [0x6a], 2⟩, .set (.ascii [0x76, 0x77])), (⟨.ascii [0x6b], 2⟩, .delete)],
    .append (.txCommit 1)]

/-- It is read back with its keys, its values and its deletion. -/
theorem readAll_runCalls_transaction :
    WalReader.readAll (runCalls transaction newLog).1.file = .ok (transaction.map Call.cmd) :=
  (readAll_runCalls_iff transaction (by decide)).mpr (by decide)

/-- A transaction that writes an empty value. -/
def emptySet : List Call :=
  [.append (.txBegin 1), .appendKv 1 ⟨.ascii [0x6b], 1⟩ (.set .empty), .append (.txCommit 1)]

/-- All three calls succeed, and the empty value is read back as a deletion. -/
theorem readAll_emptySet :
    (runCalls emptySet newLog).2 = emptySet.map Call.cmd ∧
      WalReader.readAll (runCalls emptySet newLog).1.file =
        .ok [.txBegin 1, .op 1 ⟨.ascii [0x6b], 1⟩ .delete, .txCommit 1] ∧
      WalReader.readAll (runCalls emptySet newLog).1.file ≠ .ok (emptySet.map Call.cmd) := by
  decide

end WalWriter

end LowDB
