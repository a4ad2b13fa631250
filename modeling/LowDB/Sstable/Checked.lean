import LowDB.Sstable.Scan

/-! # Bytes under the checksum

`Cursor::new` verifies the bytes that the block header declares, but `next_entry` goes on to the end of
the buffer, whose length is taken from the index.  `Served` says that the cursor returns only what lies
in the declared bytes, that a table scan, which stops there, reads the same entries, and that a zeroed
block is not answered; `served_iff` says for which buffers this is so.  The header is not under the
checksum, and a block of zeros declares, and verifies, no bytes at all (`zeroed_block`). -/

namespace LowDB

open Codec

/-- An entry that a reader can return. -/
def Entry.Readable (e : Entry) : Prop := e.Fits ∧ e.stored = e

instance (e : Entry) : Decidable e.Readable := by unfold Entry.Readable; infer_instance

theorem fieldBytes_inj {u u' v v' r r' : Bytes} {s s' : UInt64}
    (h : fieldBytes u s v ++ r = fieldBytes u' s' v' ++ r') (hu : u.length < 2 ^ 16)
    (hu' : u'.length < 2 ^ 16) (hv : v.length < 2 ^ 16) (hv' : v'.length < 2 ^ 16) :
    u = u' ∧ v = v' := by
  have hlen : ∀ {n m : ℕ}, n < 2 ^ 16 → m < 2 ^ 16 → be 2 n = be 2 m → n = m := by
    intro n m hn hm h
    have hnat := congrArg nat h
    rw [nat_be_mod, nat_be_mod] at hnat
    omega
  simp only [fieldBytes, List.append_assoc] at h
  obtain ⟨h₁, t₁⟩ := List.append_inj h (by simp)
  obtain ⟨h₂, t₂⟩ := List.append_inj t₁ (hlen hu hu' h₁)
  obtain ⟨-, t₃⟩ := List.append_inj t₂ (by simp)
  obtain ⟨h₄, t₄⟩ := List.append_inj t₃ (by simp)
  exact ⟨h₂, (List.append_inj t₄ (hlen hv hv' h₄)).1⟩

/-! ### Text -/

section text
variable {bs user value : Bytes} {s : Str} {e : Entry}

theorem strictStr_eq_ok : strictStr bs = .ok s ↔ bs = s.bytes := by
  refine ⟨fun h => ?_, fun h => h ▸ strictStr_bytes s⟩
  unfold strictStr Str.fromUtf8 at h
  by_cases hv : Utf8.Valid bs
  · rw [dif_pos hv] at h
    cases h
    rfl
  · rw [dif_neg hv] at h
    cases h

/-- The bytes of a value's text. -/
def Value.bytes : Value → Bytes
  | .set s => s.bytes
  | .delete => []

theorem entryBytes_eq (e : Entry) : entryBytes e = fieldBytes e.1.user.bytes e.1.seq e.2.bytes := by
  obtain ⟨k, s | _⟩ := e
  · rfl
  · show keyBytes k ++ be 2 0 = keyBytes k ++ (be 2 0 ++ [])
    rw [List.append_nil]

theorem stored_eq_self {v : Value} : v.stored = v ↔ v = .delete ∨ ∃ s, v = .set s ∧ s.bytes ≠ [] := by
  cases v with
  | delete => simp [Value.stored]
  | set s => simp [Value.stored, Str.len, List.length_eq_zero_iff]

theorem readsValue_strict {v : Value} :
    ReadsValue strictStr bs v ↔ bs = v.bytes ∧ v.stored = v := by
  rw [stored_eq_self]
  constructor
  · rintro (⟨rfl, rfl⟩ | ⟨hne, s, hs, rfl⟩)
    · exact ⟨rfl, .inl rfl⟩
    · obtain rfl := strictStr_eq_ok.mp hs
      exact ⟨rfl, .inr ⟨s, rfl, hne⟩⟩
  · rintro ⟨rfl, rfl | ⟨s, rfl, hne⟩⟩
    · exact .inl ⟨rfl, rfl⟩
    · exact .inr ⟨hne, s, strictStr_bytes s, rfl⟩

/-- Text that is UTF-8 is read as it is, and other text is read as something else. -/
theorem readsValue_lossy {v : Value} (h : ReadsValue lossyStr bs v) :
    v.bytes = Utf8.lossy bs ∧ v.stored = v := by
  rw [stored_eq_self]
  rcases h with ⟨rfl, rfl⟩ | ⟨hne, s, hs, rfl⟩
  · exact ⟨rfl, .inl rfl⟩
  · cases hs
    refine ⟨rfl, .inr ⟨_, rfl, fun hnil => hne ?_⟩⟩
    have hle := Utf8.length_le_lossy bs
    rw [show Utf8.lossy bs = [] from hnil] at hle
    exact List.length_eq_zero_iff.mp (Nat.le_zero.mp hle)

theorem exists_readsValue_lossy (bs : Bytes) : ∃ v, ReadsValue lossyStr bs v := by
  by_cases h : bs = []
  · exact ⟨_, .inl ⟨h, rfl⟩⟩
  · exact ⟨_, .inr ⟨h, _, rfl, rfl⟩⟩

end text

/-! ### The cursor -/

namespace Cursor

/-- Repeated `next_entry` returns the entries `es` and leaves the bytes `rest`. -/
def Reads : Bytes → List Entry → Bytes → Prop
  | bs, [], rest => rest = bs
  | bs, e :: es, rest => ∃ mid, nextEntry bs = .ok (e, mid) ∧ Reads mid es rest

variable {bs rest : Bytes} {e : Entry} {es : List Entry}

theorem nextEntry_eq_ok : nextEntry bs = .ok (e, rest) ↔ e.Readable ∧ bs = entryBytes e ++ rest := by
  constructor
  · intro h
    obtain ⟨user, value, rfl, hu, hv, hs, hr⟩ := parseEntry_eq_ok h
    obtain rfl := strictStr_eq_ok.mp hs
    obtain ⟨rfl, hst⟩ := readsValue_strict.mp hr
    refine ⟨⟨⟨hu, ?_⟩, Prod.ext rfl hst⟩, by rw [entryBytes_eq]⟩
    have hsize : e.2.heapSize = e.2.bytes.length := by cases e.2 <;> rfl
    rw [Value.Fits, hsize]
    exact hv
  · rintro ⟨⟨hfit, hst⟩, rfl⟩
    have hd := decodes_parseEntry strictStr_bytes hfit rest (e := corrupt)
    rwa [hst] at hd

theorem reads_iff : Reads bs es rest ↔ (∀ e ∈ es, e.Readable) ∧ bs = payload es ++ rest := by
  induction es generalizing bs with
  | nil => exact ⟨fun h => ⟨List.forall_mem_nil _, h.symm⟩, fun h => h.2.symm⟩
  | cons e es ih =>
      constructor
      · rintro ⟨mid, hn, hr⟩
        obtain ⟨he, rfl⟩ := nextEntry_eq_ok.mp hn
        obtain ⟨hes, rfl⟩ := ih.mp hr
        exact ⟨List.forall_mem_cons.mpr ⟨he, hes⟩, by rw [payload_cons, List.append_assoc]⟩
      · rintro ⟨hall, rfl⟩
        obtain ⟨he, hes⟩ := List.forall_mem_cons.mp hall
        refine ⟨payload es ++ rest, nextEntry_eq_ok.mpr ⟨he, ?_⟩, ih.mpr ⟨hes, rfl⟩⟩
        rw [payload_cons, List.append_assoc]

end Cursor

/-! ### A scan of the block -/

/-- The bytes begin with an entry that is not text, and the text read instead fits in the bytes. -/
def Garbled (bs : Bytes) : Prop :=
  ∃ user seq value rest, bs = fieldBytes user seq value ++ rest ∧ user.length < 2 ^ 16 ∧
    value.length < 2 ^ 16 ∧ ¬ (Utf8.Valid user ∧ Utf8.Valid value) ∧
    12 + (Utf8.lossy user).length + (Utf8.lossy value).length ≤ bs.length

theorem Garbled.ne_nil {bs : Bytes} (h : Garbled bs) : bs ≠ [] := by
  obtain ⟨user, seq, value, rest, -, -, -, -, hfits⟩ := h
  exact List.ne_nil_of_length_pos (by omega)

/-- The same behind entries that are text. -/
def HasGarbled (bs : Bytes) : Prop :=
  ∃ es bs', (∀ e ∈ es, e.Readable) ∧ bs = payload es ++ bs' ∧ Garbled bs'

theorem Entry.diskSize_eq (e : Entry) :
    e.diskSize = 12 + e.1.user.bytes.length + e.2.bytes.length := by
  have hv : e.2.diskSize = 2 + e.2.bytes.length := by cases e.2 <;> rfl
  simp only [Entry.diskSize, Key.diskSize, Key.heapSize, Str.len, hv]
  omega

theorem length_fieldBytes (u : Bytes) (s : UInt64) (v : Bytes) :
    (fieldBytes u s v).length = 12 + u.length + v.length := by
  simp [fieldBytes]
  omega

namespace TableScan

section inside
variable {t t' : TableScan} {x : Entry} {es : List Entry} {bs : Bytes}

/-- The bytes `bs` of a block are to come. -/
structure Inside (t : TableScan) (bs : Bytes) : Prop where
  reader : ∃ rest, t.r = bs ++ rest
  block : t.blockRemaining = bs.length
  total : bs.length ≤ t.remaining
  short : bs.length < 2 ^ 16

theorem readEntry_of_parse {r : Bytes} (h : parseEntry .eof lossyStr t.r = .ok (x, r))
    (hblock : x.diskSize ≤ t.blockRemaining) (hshort : t.blockRemaining < 2 ^ 16)
    (htotal : x.diskSize ≤ t.remaining) :
    t.readEntry =
      .ok (some x, ⟨r, t.blockRemaining - x.diskSize, t.remaining - x.diskSize⟩) := by
  obtain ⟨k, m₁, h₁, h⟩ := bind_eq_ok h
  obtain ⟨v, m₂, h₂, h⟩ := bind_eq_ok h
  cases h
  have hk : readKey t.r = .ok (k, m₁) := h₁
  have hd : k.diskSize + v.diskSize = Entry.diskSize (k, v) := rfl
  simp only [readEntry, bind, Except.bind, hk, h₂, hd]
  rw [if_neg (by omega), if_neg (by omega)]
  rfl

theorem readEntry_eq_ok (h : t.readEntry = .ok (some x, t')) :
    parseEntry .eof lossyStr t.r = .ok (x, t'.r) ∧ x.diskSize ≤ t.blockRemaining ∧
      t'.blockRemaining = t.blockRemaining - x.diskSize ∧
      t'.remaining = t.remaining - x.diskSize := by
  obtain ⟨⟨k, r₁⟩, h₁, h⟩ := ok_of_bind h
  obtain ⟨⟨v, r₂⟩, h₂, h⟩ := ok_of_bind h
  dsimp only at h
  split_ifs at h with hb ht
  · cases h
  · cases h
  · cases h
  · cases h
    refine ⟨?_, Nat.not_lt.mp fun hlt => hb (.inl hlt), rfl, rfl⟩
    have hk : parseKey .eof lossyStr t.r = .ok (k, r₁) := h₁
    rw [parseEntry, bind_apply, hk]
    dsimp only
    rw [bind_apply, h₂]
    rfl

/-- The next entry of the block, as far as its strings are text. -/
theorem readEntry_inside (hi : Inside t bs) (h : t.readEntry = .ok (some x, t')) :
    Garbled bs ∨ x.Readable ∧ ∃ bs', bs = entryBytes x ++ bs' ∧ Inside t' bs' := by
  obtain ⟨hp, hle, hblock, htotal⟩ := readEntry_eq_ok h
  obtain ⟨user, value, hr, hu, hv, hs, hval⟩ := parseEntry_eq_ok hp
  obtain ⟨hvb, hst⟩ := readsValue_lossy hval
  have hub : x.1.user.bytes = Utf8.lossy user := (congrArg Str.bytes (Except.ok.inj hs)).symm
  obtain ⟨rest, hreader⟩ := hi.reader
  have hsize := x.diskSize_eq
  rw [hub, hvb] at hsize
  have hlen := length_fieldBytes user x.1.seq value
  have hgu := Utf8.length_le_lossy user
  have hgv := Utf8.length_le_lossy value
  rw [hi.block] at hle hblock
  -- the lossy text is at least as long as the fields, so these lie inside the block
  obtain ⟨bs', rfl⟩ : fieldBytes user x.1.seq value <+: bs := by
    have hfields : fieldBytes user x.1.seq value <+: t.r := ⟨t'.r, hr.symm⟩
    have hbs : bs <+: t.r := ⟨rest, hreader.symm⟩
    exact List.prefix_of_prefix_length_le hfields hbs (by omega)
  by_cases hvalid : Utf8.Valid user ∧ Utf8.Valid value
  · refine .inr ?_
    have hfields : entryBytes x = fieldBytes user x.1.seq value := by
      rw [entryBytes_eq, hub, hvb, Utf8.lossy_of_valid hvalid.1, Utf8.lossy_of_valid hvalid.2]
    have hd : x.diskSize = (fieldBytes user x.1.seq value).length := by
      rw [← hfields, length_entryBytes]
    have htot := hi.total
    have hshort := hi.short
    rw [List.length_append] at hblock htot hshort
    refine ⟨⟨⟨?_, ?_⟩, Prod.ext rfl hst⟩, bs', by rw [hfields], ⟨rest, ?_⟩, ?_, ?_, ?_⟩
    · show x.1.user.bytes.length < 2 ^ 16
      rw [hub, Utf8.lossy_of_valid hvalid.1]
      exact hu
    · have hsz : x.2.heapSize = x.2.bytes.length := by cases x.2 <;> rfl
      rw [Value.Fits, hsz, hvb, Utf8.lossy_of_valid hvalid.2]
      exact hv
    · rw [hreader, List.append_assoc] at hr
      exact (List.append_cancel_left hr).symm
    · omega
    · omega
    · omega
  · exact .inl ⟨user, x.1.seq, value, bs', rfl, hu, hv, hvalid, by omega⟩

theorem inside_of_readable (hi : Inside t (entryBytes x ++ bs)) (hx : x.Readable) :
    ∃ t', t.readEntry = .ok (some x, t') ∧ Inside t' bs := by
  obtain ⟨rest, hr⟩ := hi.reader
  have hd := decodes_parseEntry (e := .eof) lossyStr_bytes hx.1 (bs ++ rest)
  rw [hx.2, ← List.append_assoc, ← hr] at hd
  have hblock := hi.block
  have htotal := hi.total
  have hshort := hi.short
  rw [List.length_append, length_entryBytes] at hblock htotal hshort
  exact ⟨_, readEntry_of_parse hd (by omega) (by omega) (by omega), ⟨rest, rfl⟩,
    Nat.sub_eq_of_eq_add (by omega), Nat.le_sub_of_add_le (by omega), by omega⟩

end inside

section block
variable [Crc32] {t t' : TableScan} {es : List Entry} {bs : Bytes}

/-- Repeated `next` returns the entries `es` of one block. -/
def ReadsBlock : TableScan → List Entry → Prop
  | _, [] => True
  | t, e :: es =>
    ∃ t', t.next = .ok (some e, t') ∧ (es ≠ [] → t'.blockRemaining ≠ 0) ∧ ReadsBlock t' es

theorem next_inside (hi : Inside t bs) (hne : bs ≠ []) : t.next = t.readEntry := by
  have hpos := List.length_pos_iff.mpr hne
  have hblock := hi.block
  have htotal := hi.total
  rw [next, if_neg (by omega), if_neg (by omega)]

omit [Crc32] in
theorem Inside.ne_nil (hi : Inside t bs) (h : t.blockRemaining ≠ 0) : bs ≠ [] := by
  rintro rfl
  exact h hi.block

omit [Crc32] in
theorem payload_ne_nil {e : Entry} {bs : Bytes} : payload (e :: es) ++ bs ≠ [] := by
  have hpos := diskSize_entry_pos e
  rw [payload_cons]
  apply List.ne_nil_of_length_pos
  simp only [List.length_append, length_entryBytes]
  omega

theorem readsBlock_of_readable (hi : Inside t (payload es ++ bs)) (hes : ∀ e ∈ es, e.Readable) :
    t.ReadsBlock es := by
  induction es generalizing t with
  | nil => exact trivial
  | cons e es ih =>
      obtain ⟨he, hes⟩ := List.forall_mem_cons.mp hes
      have hnext := next_inside hi payload_ne_nil
      rw [payload_cons, List.append_assoc] at hi
      obtain ⟨t', ht, hi'⟩ := inside_of_readable hi he
      refine ⟨t', hnext.trans ht, fun hne => ?_, ih hi' hes⟩
      obtain ⟨e', es, rfl⟩ := List.exists_cons_of_ne_nil hne
      rw [hi'.block]
      exact (List.length_pos_iff.mpr payload_ne_nil).ne'

/-- What a scan reads of a block whose strings are text. -/
theorem readsBlock_inside (hi : Inside t bs) (hne : es ≠ [] → bs ≠ []) (h : t.ReadsBlock es) :
    HasGarbled bs ∨ (∀ e ∈ es, e.Readable) ∧ ∃ bs', bs = payload es ++ bs' := by
  induction es generalizing t bs with
  | nil => exact .inr ⟨List.forall_mem_nil _, bs, rfl⟩
  | cons e es ih =>
      obtain ⟨t', hn, hmore, ht⟩ := h
      rw [next_inside hi (hne (List.cons_ne_nil _ _))] at hn
      rcases readEntry_inside hi hn with hg | ⟨he, bs', rfl, hi'⟩
      · exact .inl ⟨[], bs, List.forall_mem_nil _, rfl, hg⟩
      · rcases ih hi' (fun h => hi'.ne_nil (hmore h)) ht with ⟨ds, r, hds, rfl, hg⟩ | ⟨hes, r, rfl⟩
        · exact .inl ⟨e :: ds, r, List.forall_mem_cons.mpr ⟨he, hds⟩,
            by rw [payload_cons, List.append_assoc], hg⟩
        · exact .inr ⟨List.forall_mem_cons.mpr ⟨he, hes⟩, r, by rw [payload_cons, List.append_assoc]⟩

omit [Crc32] in
/-- A scan reads an entry where the cursor finds that it is not text. -/
theorem readEntry_of_garbled (hi : Inside t bs) (hg : Garbled bs) :
    ∃ x t', t.readEntry = .ok (some x, t') ∧ ∀ more r, nextEntry (bs ++ more) ≠ .ok (x, r) := by
  obtain ⟨user, seq, value, rest, rfl, hu, hv, hvalid, hfits⟩ := hg
  obtain ⟨v, hval⟩ := exists_readsValue_lossy value
  obtain ⟨x, rfl, hs, hval⟩ : ∃ x : Entry, x.1.seq = seq ∧ lossyStr user = .ok x.1.user ∧
      ReadsValue lossyStr value x.2 := ⟨(⟨Str.lossy user, seq⟩, v), rfl, rfl, hval⟩
  obtain ⟨more, hr⟩ := hi.reader
  have hsize := x.diskSize_eq
  have hub : x.1.user.bytes = Utf8.lossy user := (congrArg Str.bytes (Except.ok.inj hs)).symm
  rw [hub, (readsValue_lossy hval).1] at hsize
  have hp := decodes_fieldBytes (e := .eof) hu hv hs hval (rest ++ more)
  rw [← List.append_assoc, ← hr] at hp
  have hblock := hi.block
  have htotal := hi.total
  have hshort := hi.short
  refine ⟨x, _, readEntry_of_parse hp (by omega) (by omega) (by omega), fun more r hn => hvalid ?_⟩
  obtain ⟨u', v', hb, hu', hv', hs', hval'⟩ := parseEntry_eq_ok hn
  rw [List.append_assoc] at hb
  obtain ⟨rfl, rfl⟩ := fieldBytes_inj hb hu hu' hv hv'
  rw [strictStr_eq_ok.mp hs', (readsValue_strict.mp hval').1]
  refine ⟨Str.utf8 _, ?_⟩
  cases x.2 with
  | set s => exact s.utf8
  | delete => exact Utf8.valid_nil

theorem readsBlock_of_hasGarbled (hi : Inside t bs) (hg : HasGarbled bs) :
    ∃ es, t.ReadsBlock es ∧ ∀ more r, ¬ Cursor.Reads (bs ++ more) es r := by
  obtain ⟨ds, bs', hds, rfl, hg⟩ := hg
  induction ds generalizing t with
  | nil =>
      obtain ⟨x, t', ht, hno⟩ := readEntry_of_garbled hi hg
      refine ⟨[x], ⟨t', (next_inside hi hg.ne_nil).trans ht, fun h => absurd rfl h, trivial⟩, ?_⟩
      rintro more r ⟨mid, hn, -⟩
      exact hno more mid hn
  | cons e ds ih =>
      obtain ⟨he, hds⟩ := List.forall_mem_cons.mp hds
      have hnext := next_inside hi payload_ne_nil
      rw [payload_cons, List.append_assoc] at hi
      obtain ⟨t', ht, hi'⟩ := inside_of_readable hi he
      obtain ⟨es, hes, hno⟩ := ih hds hi'
      refine ⟨e :: es, ⟨t', hnext.trans ht, ?_, hes⟩, ?_⟩
      · intro _
        have hpos := List.length_pos_iff.mpr hg.ne_nil
        rw [hi'.block, List.length_append]
        omega
      · rintro more r ⟨mid, hn, hr⟩
        obtain ⟨-, hb⟩ := Cursor.nextEntry_eq_ok.mp hn
        rw [payload_cons, List.append_assoc, List.append_assoc] at hb
        rw [← List.append_cancel_left hb, ← List.append_assoc] at hr
        exact hno more r hr

end block

end TableScan

/-! ### Both readers on one block -/

/-- The payload length in the header of a block. -/
def declaredLen (buf : Bytes) : ℕ := nat ((buf.drop 4).take 2)

/-- The bytes that the checksum covers. -/
def covered (buf : Bytes) : Bytes := (buf.drop blockHeader).take (declaredLen buf)

/-- The bytes behind the header begin with entries that do not end in the declared payload. -/
def Overrun (buf : Bytes) : Prop :=
  ∃ es rest, (∀ e ∈ es, e.Readable) ∧ buf.drop blockHeader = payload es ++ rest ∧
    declaredLen buf < (payload es).length

section served
variable [Crc32] {buf rest : Bytes}

/-- What the readers are to make of a block in which the cursor has the bytes `rest` in front of it. -/
structure Served (buf rest : Bytes) : Prop where
  /-- the entries of the cursor end in the declared payload -/
  declared : ∀ es r, Cursor.Reads rest es r → rest.length ≤ declaredLen buf + r.length
  /-- a scan that stands in front of the block reads the same entries -/
  same : ∀ more n es, buf.length ≤ n →
    ((∃ r, Cursor.Reads rest es r) ↔ TableScan.ReadsBlock ⟨buf ++ more, 0, n⟩ es)
  /-- a lookup in a zeroed block fails -/
  zeroed : (∀ b ∈ buf, b = 0) → ∀ user snapshot,
    ∃ e, SSTable.scanBlock user snapshot (rest.length + 1) rest = .error e

/-- The parts of a block that `Cursor::new` accepts. -/
theorem cursor_new_eq_ok (h : Cursor.new buf = .ok rest) :
    ∃ sum len, buf = sum ++ (len ++ rest) ∧ sum.length = 4 ∧ len.length = 2 ∧
      declaredLen buf = nat len ∧ nat len ≤ rest.length ∧ covered buf = rest.take (nat len) ∧
      (Crc32.hash (covered buf)).toNat = nat sum := by
  obtain ⟨⟨checksum, r₁⟩, h₁, h⟩ := ok_of_bind h
  obtain ⟨⟨len, r₂⟩, h₂, h⟩ := ok_of_bind h
  obtain ⟨sum, rfl, hsum, rfl⟩ := beNat_eq_ok h₁
  obtain ⟨as, rfl, has, rfl⟩ := beNat_eq_ok h₂
  have hdrop : (sum ++ (as ++ r₂)).drop blockHeader = r₂ := by
    rw [← List.append_assoc]
    exact List.drop_left' (by simp [hsum, has, blockHeader])
  have hlen : declaredLen (sum ++ (as ++ r₂)) = nat as := by
    rw [declaredLen, List.drop_left' hsum, List.take_left' has]
  dsimp only at h
  rw [hdrop] at h
  by_cases hshort : (sum ++ (as ++ r₂)).length < blockHeader + nat as
  · rw [if_pos hshort] at h
    cases h
  by_cases hcrc : (Crc32.hash (r₂.take (nat as))).toNat ≠ nat sum
  · rw [if_neg hshort, if_pos hcrc] at h
    cases h
  rw [if_neg hshort, if_neg hcrc] at h
  obtain rfl : r₂ = rest := Except.ok.inj h
  have hcov : covered (sum ++ (as ++ r₂)) = r₂.take (nat as) := by rw [covered, hdrop, hlen]
  refine ⟨sum, as, rfl, hsum, has, hlen, ?_, hcov, by rw [hcov]; exact not_not.mp hcrc⟩
  simp only [List.length_append, blockHeader] at hshort
  omega

theorem drop_of_new (h : Cursor.new buf = .ok rest) : buf.drop blockHeader = rest := by
  obtain ⟨sum, len, rfl, hs, hl, -⟩ := cursor_new_eq_ok h
  rw [← List.append_assoc]
  exact List.drop_left' (by simp [hs, hl, blockHeader])

/-- A scan in front of a block that the cursor accepts has the covered bytes to come. -/
theorem checkBlock_of_new (h : Cursor.new buf = .ok rest) (more : Bytes) {n : ℕ}
    (hn : buf.length ≤ n) :
    ∃ t, TableScan.checkBlock ⟨buf ++ more, 0, n⟩ = .ok t ∧ t.Inside (covered buf) := by
  obtain ⟨sum, len, hbuf, hs, hl, hd, hle, hcov, hcrc⟩ := cursor_new_eq_ok h
  have hlt := nat_lt len
  have htot : buf.length = 6 + rest.length := by
    rw [hbuf, List.length_append, List.length_append]
    omega
  have hclen : (covered buf).length = nat len := by
    rw [hcov, List.length_take, Nat.min_eq_left hle]
  have hreader : buf ++ more = sum ++ (len ++ (rest ++ more)) := by
    rw [hbuf]
    simp
  have hrest : rest = covered buf ++ rest.drop (nat len) := by rw [hcov, List.take_append_drop]
  have h4 : beNat DbError.eof 4 (buf ++ more) = .ok (nat sum, len ++ (rest ++ more)) := by
    rw [hreader, beNat, bind_apply, ← hs, take_append]
    rfl
  have h2 : beNat DbError.eof 2 (len ++ (rest ++ more)) = .ok (nat len, rest ++ more) := by
    rw [beNat, bind_apply, ← hl, take_append]
    rfl
  have hp : take DbError.eof (nat len) (rest ++ more) =
      .ok (covered buf, rest.drop (nat len) ++ more) := by
    have ht := take_append DbError.eof (covered buf) (rest.drop (nat len) ++ more)
    rwa [← List.append_assoc, ← hrest, hclen] at ht
  refine ⟨⟨rest ++ more, nat len, n - blockHeader⟩, ?_, ⟨rest.drop (nat len) ++ more, ?_⟩, hclen.symm,
    ?_, ?_⟩
  · simp only [TableScan.checkBlock, bind, Except.bind, h4, h2, hp]
    rw [if_neg (by simp only [blockHeader]; omega), if_neg (not_not.mpr hcrc)]
    rfl
  · rw [← List.append_assoc, ← hrest]
  · show (covered buf).length ≤ n - blockHeader
    simp only [blockHeader]
    omega
  · rw [hl] at hlt
    omega

/-- The scan reads the entries of the block behind the header. -/
theorem readsBlock_front {more : Bytes} {n : ℕ} {t : TableScan} (hn : buf.length ≤ n)
    (hlong : blockHeader ≤ buf.length)
    (ht : TableScan.checkBlock ⟨buf ++ more, 0, n⟩ = .ok t) (hi : t.Inside (covered buf))
    (es : List Entry) :
    TableScan.ReadsBlock ⟨buf ++ more, 0, n⟩ es ↔
      t.ReadsBlock es ∧ (es ≠ [] → covered buf ≠ []) := by
  have hn0 : n ≠ 0 := by
    simp only [blockHeader] at hlong
    omega
  have hb := hi.block
  cases es with
  | nil => exact ⟨fun _ => ⟨trivial, fun h => absurd rfl h⟩, fun _ => trivial⟩
  | cons e es =>
      have hnext : TableScan.next ⟨buf ++ more, 0, n⟩ =
          if t.blockRemaining = 0 then
            if t.remaining = 0 then .ok (none, t)
            else .error (.invalidState "empty block before end of the table")
          else t.readEntry := by
        rw [TableScan.next, if_neg hn0, if_pos rfl, ht]
        rfl
      by_cases hc : covered buf = []
      · rw [hc, List.length_nil] at hb
        rw [if_pos hb] at hnext
        refine ⟨?_, fun h => absurd hc (h.2 (List.cons_ne_nil _ _))⟩
        rintro ⟨t', h, -⟩
        rw [hnext] at h
        split_ifs at h
        cases h
      · have hne : t.blockRemaining ≠ 0 := by
          rw [hb]
          exact (List.length_pos_iff.mpr hc).ne'
        rw [if_neg hne, ← TableScan.next_inside hi hc] at hnext
        unfold TableScan.ReadsBlock
        rw [hnext]
        exact ⟨fun h => ⟨h, fun _ => hc⟩, And.left⟩

theorem length_of_new (h : Cursor.new buf = .ok rest) : buf.length = blockHeader + rest.length := by
  obtain ⟨sum, len, rfl, hs, hl, -⟩ := cursor_new_eq_ok h
  rw [List.length_append, List.length_append, hs, hl, blockHeader]
  omega

/-- Where no entry overruns, the cursor reads in the covered bytes. -/
theorem declared_of_not_overrun (h : Cursor.new buf = .ok rest) (ho : ¬ Overrun buf)
    {es : List Entry} {r : Bytes} (hr : Cursor.Reads rest es r) :
    (payload es).length ≤ declaredLen buf ∧ (∀ e ∈ es, e.Readable) ∧ rest = payload es ++ r := by
  obtain ⟨hes, hrest⟩ := Cursor.reads_iff.mp hr
  refine ⟨not_lt.mp fun hlt => ho ⟨es, r, hes, ?_, hlt⟩, hes, hrest⟩
  rw [drop_of_new h, hrest]

/-- Where nothing overruns and nothing is garbled, the cursor reads what a scan reads. -/
theorem reads_iff_readsBlock (h : Cursor.new buf = .ok rest) (ho : ¬ Overrun buf)
    (hg : ¬ HasGarbled (covered buf)) (more : Bytes) {n : ℕ} (hn : buf.length ≤ n)
    (es : List Entry) :
    (∃ r, Cursor.Reads rest es r) ↔ TableScan.ReadsBlock ⟨buf ++ more, 0, n⟩ es := by
  have hheader : blockHeader ≤ buf.length := length_of_new h ▸ Nat.le_add_right _ _
  obtain ⟨-, len, -, -, -, hd, hle, hcov, -⟩ := cursor_new_eq_ok h
  have hrest : rest = covered buf ++ rest.drop (nat len) := by rw [hcov, List.take_append_drop]
  have hclen : (covered buf).length = nat len := by
    rw [hcov, List.length_take, Nat.min_eq_left hle]
  obtain ⟨t, ht, hi⟩ := checkBlock_of_new h more hn
  rw [readsBlock_front hn hheader ht hi]
  constructor
  · rintro ⟨r, hr⟩
    obtain ⟨hdecl, hes, hrest'⟩ := declared_of_not_overrun h ho hr
    obtain ⟨bs', hbs⟩ : payload es <+: covered buf := by
      have hpay : payload es <+: rest := ⟨r, hrest'.symm⟩
      have hcov : covered buf <+: rest := ⟨rest.drop (nat len), hrest.symm⟩
      exact List.prefix_of_prefix_length_le hpay hcov (by omega)
    rw [← hbs] at hi ⊢
    refine ⟨TableScan.readsBlock_of_readable hi hes, ?_⟩
    intro hne
    obtain ⟨e, es, rfl⟩ := List.exists_cons_of_ne_nil hne
    exact TableScan.payload_ne_nil
  · rintro ⟨hread, hne⟩
    obtain ⟨hes, bs', hbs⟩ := (TableScan.readsBlock_inside hi hne hread).resolve_left hg
    refine ⟨bs' ++ rest.drop (nat len), Cursor.reads_iff.mpr ⟨hes, ?_⟩⟩
    rw [← List.append_assoc, ← hbs]
    exact hrest

/-- A header of zeros in front of nothing. -/
theorem zeroed_of_length (h0 : Crc32.hash [] = 0) (h : Cursor.new buf = .ok rest)
    (hlen : buf.length = blockHeader) : rest = [] ∧ ∀ b ∈ buf, b = 0 := by
  have hl := length_of_new h
  obtain ⟨sum, len, hbuf, hs, hlen2, -, hle, hcov, hcrc⟩ := cursor_new_eq_ok h
  obtain rfl : rest = [] := List.length_eq_zero_iff.mp (by omega)
  have hzero : ∀ {w : ℕ} {bs : Bytes}, bs.length = w → nat bs = 0 → bs = be w 0 := by
    rintro w bs rfl hn
    rw [← hn, be_nat]
  rw [hcov, List.take_nil, h0] at hcrc
  have hsum := hzero hs hcrc.symm
  have hlen0 := hzero hlen2 (Nat.le_zero.mp hle)
  refine ⟨rfl, ?_⟩
  intro b hb
  rw [hbuf, hsum, hlen0] at hb
  exact List.eq_of_mem_replicate (n := 6) hb

/-- Zeros are versions of the empty key, twelve bytes each. -/
theorem overrun_of_zeroed (h : Cursor.new buf = .ok rest) (hz : ∀ b ∈ buf, b = 0)
    (hlong : 12 ≤ rest.length) : Overrun buf := by
  obtain ⟨sum, len, rfl, -, hl, hd, -⟩ := cursor_new_eq_ok h
  have hlen : len = be 2 0 :=
    List.eq_replicate_iff.mpr ⟨hl, fun b hb => hz b (by simp [hb])⟩
  have hrest : rest = List.replicate rest.length 0 :=
    List.eq_replicate_iff.mpr ⟨rfl, fun b hb => hz b (by simp [hb])⟩
  refine ⟨[(⟨.empty, 0⟩, .delete)], rest.drop 12, by decide, ?_, ?_⟩
  · have hpay : payload [(⟨.empty, 0⟩, .delete)] = List.replicate 12 0 := by decide
    have htake : rest.take 12 = List.replicate 12 0 := by
      rw [hrest, List.take_replicate, Nat.min_eq_left hlong]
    rw [drop_of_new h, hpay, ← htake, List.take_append_drop]
  · rw [hd, hlen]
    decide

omit [Crc32] in
/-- Bytes too short for an entry are reported, unless there are none. -/
theorem scanBlock_of_short (hne : rest ≠ []) (hshort : rest.length < 12) (user : Str)
    (snapshot : ℕ) :
    ∃ e, SSTable.scanBlock user snapshot (rest.length + 1) rest = .error e := by
  rw [SSTable.scanBlock, List.isEmpty_eq_false_iff.mpr hne, if_neg Bool.false_ne_true]
  cases hn : nextEntry rest with
  | error e => exact ⟨e, rfl⟩
  | ok r =>
      obtain ⟨-, hr⟩ := Cursor.nextEntry_eq_ok.mp (hn : nextEntry rest = .ok (r.1, r.2))
      have hpos := diskSize_entry_pos r.1
      have hlen := congrArg List.length hr
      rw [List.length_append, length_entryBytes] at hlen
      omega

/-- **Checksummed bytes**: a block that the cursor accepts is served right exactly if no entry behind
the header ends outside the declared payload, the payload has no entry whose strings are not UTF-8 and
fit when they are replaced, and the block is more than a header. -/
theorem served_iff (h0 : Crc32.hash [] = 0) (h : Cursor.new buf = .ok rest) :
    Served buf rest ↔
      ¬ Overrun buf ∧ ¬ HasGarbled (covered buf) ∧ buf.length ≠ blockHeader := by
  have hlen := length_of_new h
  obtain ⟨-, len, -, -, -, -, -, hcov, -⟩ := cursor_new_eq_ok h
  have hrest : rest = covered buf ++ rest.drop (nat len) := by rw [hcov, List.take_append_drop]
  have hheader : blockHeader ≤ buf.length := hlen ▸ Nat.le_add_right _ _
  constructor
  · rintro ⟨hdecl, hsame, hzero⟩
    refine ⟨?_, ?_, ?_⟩
    · rintro ⟨es, r, hes, hr, hlt⟩
      rw [drop_of_new h] at hr
      have hle' := hdecl es r (Cursor.reads_iff.mpr ⟨hes, hr⟩)
      have hl := congrArg List.length hr
      rw [List.length_append] at hl
      omega
    · intro hg
      obtain ⟨t, ht, hi⟩ := checkBlock_of_new h [] le_rfl
      obtain ⟨es, hes, hno⟩ := TableScan.readsBlock_of_hasGarbled hi hg
      have hne : covered buf ≠ [] := by
        obtain ⟨ds, bs', -, hcovered, hbs⟩ := hg
        rw [hcovered]
        exact List.append_ne_nil_of_right_ne_nil _ hbs.ne_nil
      obtain ⟨r, hr⟩ := (hsame [] _ es le_rfl).mpr
        ((readsBlock_front le_rfl hheader ht hi es).mpr ⟨hes, fun _ => hne⟩)
      rw [hrest] at hr
      exact hno _ r hr
    · intro heq
      obtain ⟨rfl, hz⟩ := zeroed_of_length h0 h heq
      obtain ⟨e, he⟩ := hzero hz .empty 0
      cases he
  · rintro ⟨ho, hg, hne⟩
    refine ⟨?_, ?_, ?_⟩
    · intro es r hr
      obtain ⟨hle', -, hrest'⟩ := declared_of_not_overrun h ho hr
      have hl := congrArg List.length hrest'
      rw [List.length_append] at hl
      omega
    · exact fun more n es hn => reads_iff_readsBlock h ho hg more hn es
    · intro hz user snapshot
      refine scanBlock_of_short ?_ ?_ user snapshot
      · rintro rfl
        exact hne hlen
      · exact not_le.mp fun hlong => ho (overrun_of_zeroed h hz hlong)

end served

/-- A block of eighteen zeros. -/
def zeros : Bytes := List.replicate 18 0

theorem cursor_new_zeros : @Cursor.new crc32 zeros = .ok (List.replicate 12 0) := by
  decide

theorem served_iff_zeros : ¬ @Served crc32 zeros (List.replicate 12 0) := by
  rw [@served_iff crc32 _ _ (by decide) cursor_new_zeros]
  rintro ⟨ho, -⟩
  exact ho (@overrun_of_zeroed crc32 _ _ cursor_new_zeros (fun _ => List.eq_of_mem_replicate) (by decide))

/-- A table of one block, whose entry takes 24 bytes. -/
def oneBlock : List Entry :=
  [(⟨.ascii [0x6b], 1⟩, .set (.repeated 11 0x76))]

def zeroBlock (file : Bytes) : Bytes := List.replicate 30 0 ++ file.drop 30

/-- The key is found in the table, and is absent once the block is zeroed. -/
def loses [Crc32] : DbResult (Option (Bytes × SSTableMeta)) → Bool
  | .ok (some (file, m)) =>
    decide (SSTable.get ⟨file, m⟩ (.ascii [0x6b]) 1 = .ok (.found (.repeated 11 0x76))) &&
      decide (SSTable.get ⟨zeroBlock file, m⟩ (.ascii [0x6b]) 1 = .ok .absent)
  | _ => false

/-- A lookup in a table whose only block was zeroed answers that the key is absent. -/
theorem zeroed_block :
    ∃ file m, @writeTable crc32 oneBlock = .ok (some (file, m)) ∧
      @SSTable.get crc32 ⟨file, m⟩ (.ascii [0x6b]) 1 = .ok (.found (.repeated 11 0x76)) ∧
      @SSTable.get crc32 ⟨zeroBlock file, m⟩ (.ascii [0x6b]) 1 = .ok .absent ∧
      ¬ @Served crc32 zeros (List.replicate 12 0) := by
  have h : @loses crc32 (@writeTable crc32 oneBlock) = true := by decide +kernel
  rcases hw : @writeTable crc32 oneBlock with e | (_ | ⟨file, m⟩)
  · rw [hw] at h
    cases h
  · rw [hw] at h
    cases h
  · rw [hw] at h
    obtain ⟨hfound, habsent⟩ := Bool.and_eq_true_iff.mp h
    refine ⟨file, m, rfl, of_decide_eq_true hfound, of_decide_eq_true habsent, ?_⟩
    intro hs
    have hle := @Served.declared crc32 _ _ hs [(⟨.empty, 0⟩, .delete)] [] ⟨[], by decide, rfl⟩
    exact absurd hle (by decide)

end LowDB
