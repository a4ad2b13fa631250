import LowDB.Engine.Handles
import LowDB.Lib.Isolation

/-! # Transactions

The handles of a process and its calls of `DB::get` as transactions of `Isolation`: from the timestamp to
the end of the handle, or to the publication of a commit.  `Isolated` says what the conflict check comes
to: nothing published after the timestamp of a transaction that commits has a key of its buffer. -/

namespace LowDB

open Layered Isolation

/-! ### Transactions -/

/-- What a commit of the buffer writes. -/
def Buffer.writes (b : Buffer) : Writes Str Str := fun k => (b.get k).map Value.text

namespace CommitLock

/-- The commit that is under way and not published. -/
def pending : CommitLock → Option Commit
  | checked c | stamped c _ | begun c _ | logged c _ _ | sealed c _ | recorded c _ => some c
  | _ => none

/-- What the transaction `i` is committing. -/
def pendingOf (l : CommitLock) (i : ℕ) : Option Buffer :=
  (l.pending.filter fun c => c.handle = some i).map Commit.buffer

end CommitLock

/-- A reader as a transaction; `b` is what it is committing. -/
def Reader.tx (r : Reader) (b : Option Buffer) : Option (Tx Str Str) :=
  (if r.consumed then b else some r.buffer).map fun b => ⟨r.readTs, b.writes⟩

/-- The transactions, by handle. -/
def txsOf (rs : List (Option Reader)) (l : CommitLock) (i : ℕ) : Option (Tx Str Str) :=
  rs[i]?.join.bind fun r => r.tx (l.pendingOf i)

/-- The handle that an action needs for itself. -/
def Act.moves : Act → Option ℕ
  | write i _ _ | commit i | drop i => some i
  | _ => none

/-! ### Buffers -/

section buffers
variable {b : Buffer} {k : Str} {ts n : ℕ} {v : Option Str}

theorem Buffer.writes_insert (v : Value) :
    (b.insert k v).writes = Function.update b.writes k (some v.text) := by
  funext u
  unfold writes
  rw [get_insert]
  by_cases hu : k = u
  · simp [hu]
  · simp [hu, Function.update_of_ne (Ne.symm hu)]

theorem Buffer.writes_ne_none : b.writes k ≠ none ↔ k ∈ b.keys := by
  unfold writes
  rw [ne_eq, Option.map_eq_none_iff, get_eq_none_iff, not_not]

theorem Buffer.layer_batch (hts : ts < 2 ^ 64) : layer (b.batch ts) = b.writes.at ts := by
  ext ⟨k, n, v⟩
  unfold Writes.at Buffer.writes
  constructor
  · intro h
    refine ⟨time_of_layer_batch hts h, ?_⟩
    obtain ⟨e, he, hx⟩ := h
    obtain ⟨x, hxm, rfl⟩ := List.mem_map.mp he
    cases hx
    exact congrArg (Option.map Value.text) (get_eq_some_iff.mpr hxm)
  · rintro ⟨rfl, hw⟩
    obtain ⟨w, hw, rfl⟩ := Option.map_eq_some_iff.mp hw
    refine ⟨_, List.mem_map_of_mem (get_eq_some_iff.mp hw), ?_⟩
    show (k, (UInt64.ofNat n).toNat, w.text) = (k, n, w.text)
    rw [UInt64.toNat_ofNat', Nat.mod_eq_of_lt hts]

end buffers

/-! ### The transactions after an action -/

section txs
variable {rs : List (Option Reader)} {l l' : CommitLock} {i : ℕ} {r r' : Reader} {o : Option Reader}
  {c : Commit}

theorem txsOf_set (h : rs[i]? = some (some r)) :
    txsOf (rs.set i o) l = Function.update (txsOf rs l) i (o.bind fun r => r.tx (l.pendingOf i)) := by
  have hi := (List.getElem?_eq_some_iff.mp h).1
  funext j
  unfold txsOf
  by_cases hj : j = i
  · rw [hj, Function.update_self, List.getElem?_set_self hi]
    rfl
  · rw [Function.update_of_ne hj, List.getElem?_set_ne (Ne.symm hj)]

theorem txsOf_of_getElem? (h : rs[i]? = some (some r)) : txsOf rs l i = r.tx (l.pendingOf i) := by
  unfold txsOf
  rw [h]
  rfl

theorem txsOf_set_same (h : rs[i]? = some (some r)) (ht : r'.tx (l.pendingOf i) = r.tx (l.pendingOf i)) :
    txsOf (rs.set i (some r')) l = txsOf rs l := by
  rw [txsOf_set h, Option.bind_some, ht, ← txsOf_of_getElem? h, Function.update_eq_self]

theorem txsOf_append (kind : Reader.Kind) (ts : ℕ) :
    txsOf (rs ++ [some (.started kind ts)]) l =
      Function.update (txsOf rs l) rs.length (some ⟨ts, fun _ => none⟩) := by
  funext j
  unfold txsOf
  by_cases hj : j = rs.length
  · rw [hj, Function.update_self, List.getElem?_concat_length]
    rfl
  · rw [Function.update_of_ne hj]
    by_cases hlt : j < rs.length
    · rw [List.getElem?_append_left hlt]
    · rw [List.getElem?_eq_none (by simp; omega), List.getElem?_eq_none (by omega)]

theorem tx_miss (es : List Entry) (r : Reader) (b : Option Buffer) : (r.miss es).tx b = r.tx b := by
  unfold Reader.miss
  split <;> rfl

theorem txsOf_map_miss (es : List Entry) :
    txsOf (rs.map (Option.map (Reader.miss es))) l = txsOf rs l := by
  funext j
  unfold txsOf
  rw [List.getElem?_map]
  cases rs[j]? with
  | none => rfl
  | some o =>
      cases o with
      | none => rfl
      | some r => exact tx_miss es r _

theorem txsOf_lock (h : ∀ i, l'.pendingOf i = l.pendingOf i) : txsOf rs l' = txsOf rs l := by
  funext j
  unfold txsOf
  rw [h]

theorem handle_of_pending (h : l.pending = some c) : l.handle = c.handle := by
  cases l <;> cases h <;> rfl

theorem pendingOf_of_none (h : l.pending = none) (i : ℕ) : l.pendingOf i = none := by
  unfold CommitLock.pendingOf
  rw [h]
  rfl

theorem txsOf_pending (h : l'.pending = l.pending) : txsOf rs l' = txsOf rs l :=
  txsOf_lock fun i => by rw [CommitLock.pendingOf, h, CommitLock.pendingOf]

/-- Only the transaction whose commit is under way commits something. -/
theorem pendingOf_eq (h : l.pending = some c) (i : ℕ) :
    l.pendingOf i = if c.handle = some i then some c.buffer else none := by
  unfold CommitLock.pendingOf
  rw [h]
  by_cases hc : c.handle = some i <;> simp [Option.filter, hc]

/-- The transaction whose commit ends is consumed, and gone afterwards. -/
theorem txsOf_end (h : l.pending = some c) (hl' : l'.pending = none) (hc : c.handle = some i)
    (hr : rs[i]? = some (some r)) (hu : r.consumed) :
    txsOf rs l' = Function.update (txsOf rs l) i none := by
  funext j
  by_cases hj : j = i
  · rw [hj, Function.update_self, txsOf_of_getElem? hr, pendingOf_of_none hl', Reader.tx, if_pos hu]
    rfl
  · have hne : c.handle ≠ some j := fun h => hj (Option.some_inj.mp (h.symm.trans hc))
    rw [Function.update_of_ne hj]
    unfold txsOf
    rw [pendingOf_of_none hl', pendingOf_eq h, if_neg hne]

theorem txsOf_write (hr : rs[i]? = some (some r)) (hu : r.consumed = false) (k : Str) (v : Value) :
    txsOf (rs.set i (some { r with buffer := r.buffer.insert k v })) l =
      Function.update (txsOf rs l) i
        (some ⟨r.readTs, Function.update r.buffer.writes k (some v.text)⟩) := by
  rw [txsOf_set hr, Option.bind_some, Reader.tx, if_neg (by simp [hu]), Option.map_some,
    Buffer.writes_insert]

/-- A transaction is consumed and commits nothing. -/
theorem txsOf_consume (hr : rs[i]? = some (some r)) (hb : l.pendingOf i = none) (b : Buffer) :
    txsOf (rs.set i (some { r with consumed := true, buffer := b })) l =
      Function.update (txsOf rs l) i none := by
  rw [txsOf_set hr, Option.bind_some, Reader.tx, if_pos rfl, hb]
  rfl

/-- A transaction is consumed and commits its buffer. -/
theorem txsOf_commit (hr : rs[i]? = some (some r)) (hu : r.consumed = false) (tx : UInt64) (b : Buffer) :
    txsOf (rs.set i (some { r with consumed := true, buffer := b })) (.checked ⟨tx, some i, r.buffer⟩) =
      txsOf rs .free := by
  rw [txsOf_set hr]
  funext j
  by_cases hj : j = i
  · rw [hj, Function.update_self, Option.bind_some, pendingOf_eq rfl, if_pos rfl, txsOf_of_getElem? hr,
      Reader.tx, Reader.tx, if_pos rfl, if_neg (by simp [hu])]
  · have hne : some i ≠ some j := fun h => hj (Option.some_inj.mp h).symm
    rw [Function.update_of_ne hj]
    unfold txsOf
    rw [pendingOf_eq rfl, if_neg hne]
    rfl

end txs

/-! ### The invariant -/

/-- A reader has captured a state when it is consumed, and is then not looking anything up. -/
structure Reader.Orderly (r : Reader) : Prop where
  consumed : r.consumed → r.state.isSome ∧ r.registered
  pending : ∀ k ∈ r.pending, r.consumed = false ∧ r.buffer.get k = none

/-- What holds between the published versions `hist`, the published writes, the holder of the commit lock
and the readers. -/
structure Isolated (hist : Layer Str (Option Str)) (pub : List (Str × ℕ)) (l : CommitLock)
    (rs : List (Option Reader)) : Prop where
  orderly : ∀ (i : ℕ) (r : Reader), rs[i]? = some (some r) → r.Orderly
  newer : ∀ (i : ℕ) (r : Reader), rs[i]? = some (some r) → ∀ k n, Holds hist k n → r.readTs < n → (k, n) ∈ pub
  pub : ∀ x ∈ pub, Holds hist x.1 x.2
  held : ∀ i b, l.pendingOf i = some b →
    ∃ r, rs[i]? = some (some r) ∧ r.consumed ∧ ∀ k ∈ b.keys, ∀ n, Holds hist k n → n ≤ r.readTs

namespace Isolated

variable {hist hist' : Layer Str (Option Str)} {pub : List (Str × ℕ)} {l l' : CommitLock}
  {rs : List (Option Reader)} {i : ℕ} {r : Reader} {o : Option Reader}

theorem new (hist : Layer Str (Option Str)) : Isolated hist [] .free [] where
  orderly _ _ h := nomatch h
  newer _ _ h := nomatch h
  pub _ h := nomatch h
  held _ _ h := nomatch h

/-- A transaction that is not consumed commits nothing. -/
theorem pendingOf_eq_none (h : Isolated hist pub l rs) (hr : rs[i]? = some (some r))
    (hu : r.consumed = false) : l.pendingOf i = none := by
  cases hb : l.pendingOf i with
  | none => rfl
  | some b =>
      obtain ⟨r', hr', hu', -⟩ := h.held i b hb
      cases hr.symm.trans hr'
      cases hu.symm.trans hu'

/-- Steps of a commit that publish nothing. -/
theorem lock (h : Isolated hist pub l rs)
    (hl : ∀ i b, l'.pendingOf i = some b → l.pendingOf i = some b) : Isolated hist pub l' rs :=
  ⟨h.orderly, h.newer, h.pub, fun i b hb => h.held i b (hl i b hb)⟩

theorem unlock (h : Isolated hist pub l rs) (hl : l'.pending = none) : Isolated hist pub l' rs :=
  h.lock fun i _ hb => nomatch (pendingOf_of_none hl i).symm.trans hb

/-- A reader changes, and is consumed while it commits; or it goes, and commits nothing. -/
theorem set (h : Isolated hist pub l rs) (hr : rs[i]? = some (some r))
    (ho : ∀ r' ∈ o, r'.Orderly ∧ r'.readTs = r.readTs)
    (hc : ∀ b, l.pendingOf i = some b → ∃ r' ∈ o, r'.consumed) :
    Isolated hist pub l (rs.set i o) := by
  have hi := (List.getElem?_eq_some_iff.mp hr).1
  have hback : ∀ (j : ℕ) (r' : Reader), (rs.set i o)[j]? = some (some r') →
      rs[j]? = some (some r') ∨ j = i ∧ r' ∈ o := by
    intro j r' hr'
    by_cases hj : j = i
    · rw [hj, List.getElem?_set_self hi] at hr'
      exact .inr ⟨hj, Option.some_inj.mp hr'⟩
    · rw [List.getElem?_set_ne (Ne.symm hj)] at hr'
      exact .inl hr'
  refine ⟨fun j r' hr' => ?_, fun j r' hr' k n hn hlt => ?_, h.pub, fun j b hb => ?_⟩
  · rcases hback j r' hr' with hr' | ⟨-, hr'⟩
    · exact h.orderly j r' hr'
    · exact (ho r' hr').1
  · rcases hback j r' hr' with hr' | ⟨-, hr'⟩
    · exact h.newer j r' hr' k n hn hlt
    · exact h.newer i r hr k n hn ((ho r' hr').2 ▸ hlt)
  · obtain ⟨r₀, hr₀, hu, hle⟩ := h.held j b hb
    by_cases hj : j = i
    · subst hj
      cases hr.symm.trans hr₀
      obtain ⟨r', hr', hu'⟩ := hc b hb
      refine ⟨r', ?_, hu', (ho r' hr').2 ▸ hle⟩
      rw [List.getElem?_set_self hi, Option.mem_def.mp hr']
    · exact ⟨r₀, by rwa [List.getElem?_set_ne (Ne.symm hj)], hu, hle⟩

/-- The same for a reader that is not consumed. -/
theorem set_free (h : Isolated hist pub l rs) (hr : rs[i]? = some (some r)) (hu : r.consumed = false)
    (ho : ∀ r' ∈ o, r'.Orderly ∧ r'.readTs = r.readTs) : Isolated hist pub l (rs.set i o) :=
  h.set hr ho fun _ hb => nomatch (h.pendingOf_eq_none hr hu).symm.trans hb

/-- A new reader, which nothing is newer than. -/
theorem begin (h : Isolated hist pub l rs) {ts : ℕ} (hts : ∀ k n, Holds hist k n → n ≤ ts)
    (kind : Reader.Kind) : Isolated hist pub l (rs ++ [some (.started kind ts)]) := by
  have hback : ∀ (j : ℕ) (r' : Reader), (rs ++ [some (.started kind ts)])[j]? = some (some r') →
      rs[j]? = some (some r') ∨ r' = .started kind ts := by
    intro j r' hr'
    by_cases hj : j < rs.length
    · rw [List.getElem?_append_left hj] at hr'
      exact .inl hr'
    · rw [List.getElem?_append_right (Nat.le_of_not_lt hj)] at hr'
      have hm := List.mem_of_getElem? hr'
      rw [List.mem_singleton] at hm
      exact .inr (Option.some_inj.mp hm)
  refine ⟨fun j r' hr' => ?_, fun j r' hr' k n hn hlt => ?_, h.pub, fun j b hb => ?_⟩
  · rcases hback j r' hr' with hr' | rfl
    · exact h.orderly j r' hr'
    · exact ⟨(fun hu => nomatch hu), fun _ hk => nomatch hk⟩
  · rcases hback j r' hr' with hr' | rfl
    · exact h.newer j r' hr' k n hn hlt
    · exact absurd (hts k n hn) (Nat.not_le_of_lt hlt)
  · obtain ⟨r, hr, hu, hle⟩ := h.held j b hb
    have hj := (List.getElem?_eq_some_iff.mp hr).1
    exact ⟨r, by rwa [List.getElem?_append_left hj], hu, hle⟩

theorem miss (h : Isolated hist pub l rs) (es : List Entry) :
    Isolated hist pub l (rs.map (Option.map (Reader.miss es))) := by
  have hback : ∀ (j : ℕ) (r' : Reader), (rs.map (Option.map (Reader.miss es)))[j]? = some (some r') →
      ∃ r, rs[j]? = some (some r) ∧ r' = r.miss es := by
    intro j r' hr'
    rw [List.getElem?_map] at hr'
    obtain ⟨o, ho, hr'⟩ := Option.map_eq_some_iff.mp hr'
    obtain ⟨r, rfl, rfl⟩ := Option.map_eq_some_iff.mp hr'
    exact ⟨r, ho, rfl⟩
  have hsame : ∀ r : Reader, (r.miss es).readTs = r.readTs ∧ (r.miss es).consumed = r.consumed ∧
      (r.Orderly → (r.miss es).Orderly) := by
    intro r
    unfold Reader.miss
    split
    · exact ⟨rfl, rfl, fun ho => ⟨ho.consumed, ho.pending⟩⟩
    · exact ⟨rfl, rfl, id⟩
  refine ⟨fun j r' hr' => ?_, fun j r' hr' => ?_, h.pub, fun j b hb => ?_⟩
  · obtain ⟨r, hr, rfl⟩ := hback j r' hr'
    exact (hsame r).2.2 (h.orderly j r hr)
  · obtain ⟨r, hr, rfl⟩ := hback j r' hr'
    rw [(hsame r).1]
    exact h.newer j r hr
  · obtain ⟨r, hr, hu, hle⟩ := h.held j b hb
    refine ⟨r.miss es, ?_, (hsame r).2.1 ▸ hu, (hsame r).1 ▸ hle⟩
    rw [List.getElem?_map, hr]
    rfl

/-- The transaction `i` begins to commit, as no key of its buffer has been written since it began. -/
theorem commit (h : Isolated hist pub .free rs) {tx : UInt64} {st : State}
    (hr : rs[i]? = some (some r)) (hk : r.kind = .transaction tx) (hs : r.state = some st)
    (hp : r.pending = []) (hx : ∀ k ∈ r.buffer.keys, ∀ n, (k, n) ∈ pub → n ≤ r.readTs) :
    Isolated hist pub (.checked ⟨tx, some i, r.buffer⟩)
      (rs.set i (some { r with consumed := true, buffer := .empty })) := by
  have hi := (List.getElem?_eq_some_iff.mp hr).1
  have hset : Isolated hist pub .free (rs.set i (some { r with consumed := true, buffer := .empty })) := by
    refine h.set hr (fun r' hr' => ?_) fun _ hb => nomatch hb
    cases hr'
    refine ⟨⟨fun _ => ⟨by rw [hs]; rfl, by rw [Reader.registered, hk]⟩, fun k hk => ?_⟩, rfl⟩
    rw [hp] at hk
    cases hk
  refine ⟨hset.orderly, hset.newer, hset.pub, fun j b hb => ?_⟩
  rw [pendingOf_eq rfl] at hb
  split_ifs at hb with hij
  cases hij
  cases hb
  refine ⟨_, List.getElem?_set_self hi, rfl, fun k hk n hn => ?_⟩
  by_contra hlt
  exact hlt (hx k hk n (h.newer i r hr k n hn (Nat.lt_of_not_le hlt)))

/-- The versions of the commit under way are published. -/
theorem publish (h : Isolated hist pub l rs) {b : Buffer} {ts : ℕ} (hl : l'.pending = none) :
    Isolated (hist ∪ b.writes.at ts) (pub ++ b.keys.map fun k => (k, ts)) l' rs where
  orderly := h.orderly
  newer i r hr k n hn hlt := by
    rcases holds_union.mp hn with hn | hn
    · exact List.mem_append_left _ (h.newer i r hr k n hn hlt)
    · obtain ⟨rfl, hw⟩ := Writes.holds_at.mp hn
      exact List.mem_append_right _ (List.mem_map_of_mem (Buffer.writes_ne_none.mp hw))
  pub x hx := by
    rcases List.mem_append.mp hx with hx | hx
    · exact holds_union.mpr (.inl (h.pub x hx))
    · obtain ⟨k, hk, rfl⟩ := List.mem_map.mp hx
      exact holds_union.mpr (.inr (Writes.holds_at.mpr ⟨rfl, Buffer.writes_ne_none.mpr hk⟩))
  held i b hb := nomatch (pendingOf_of_none hl i).symm.trans hb

end Isolated

namespace Process

variable {d d' : Dir} {p p' : Process} {a : Act} {o : Out} {rest : List ℕ} {i : ℕ} {r : Reader}
  {k : Str} {A : Isolation.State Str Str}

def Isolated (d : Dir) (p : Process) : Prop :=
  LowDB.Isolated (p.store d).hist p.published p.commit p.readers

theorem hist_le (k : Str) (n : ℕ) (h : Holds (p.store d).hist k n) : n ≤ p.oracle.visible :=
  h.elim fun _ hv => hv.2

/-- The versions committed are those published and those of a commit whose record is written. -/
theorem histLayer_eq (hph : p.Phase d) (hco : p.Conflicts) :
    d.histLayer = (p.store d).hist ∪ layer p.commit.sealedEntries := by
  have hlt : ∀ k n v, (k, n, v) ∈ layer p.commit.sealedEntries → p.oracle.visible < n := by
    intro k n v hv
    have hts := hph.ts
    have hopen := hco.openTs
    cases hl : p.commit with
    | «sealed» c ts =>
        rw [hl] at hv hts hopen
        exact Buffer.time_of_layer_batch (hts ts rfl) hv ▸ (hopen ts rfl).1
    | recorded c ts =>
        rw [hl] at hv hts hopen
        exact Buffer.time_of_layer_batch (hts ts rfl) hv ▸ (hopen ts rfl).1
    | _ => simp [hl, CommitLock.sealedEntries] at hv
  ext ⟨k, n, v⟩
  show (k, n, v) ∈ d.hist ↔
    ((k, n, v) ∈ d.hist ∧ n ≤ p.oracle.visible) ∨ (k, n, v) ∈ layer p.commit.sealedEntries
  constructor
  · intro hv
    by_cases hn : n ≤ p.oracle.visible
    · exact .inl ⟨hv, hn⟩
    · exact .inr ((hph.hist k n v (Nat.lt_of_not_le hn)).mp hv)
  · rintro (⟨hv, -⟩ | hv)
    · exact hv
    · exact (hph.hist k n v (hlt k n v hv)).mpr hv

/-- What publishing makes of the published versions. -/
theorem hist_publish {c : Commit} {ts : ℕ} {o : Oracle} {l : CommitLock} {pub : List (Str × ℕ)}
    (hph : p.Phase d) (hco : p.Conflicts) (hc : p.commit = .recorded c ts) (ho : o.visible = ts) :
    (store d { p with oracle := o, commit := l, published := pub }).hist =
      (p.store d).hist ∪ c.buffer.writes.at ts := by
  have hall := histLayer_eq hph hco
  unfold Phase at hph
  unfold Conflicts at hco
  rw [hc] at hall hph hco
  have hlt := (hco.openTs ts rfl).1
  rw [← Buffer.layer_batch (hph.ts ts rfl)]
  refine Eq.trans ?_ hall
  ext ⟨k, n, v⟩
  refine ⟨fun hx => hx.1, fun hx => ⟨hx, ?_⟩⟩
  show n ≤ o.visible
  rw [ho]
  rw [hall] at hx
  rcases hx with hx | hx
  · exact (hist_le k n ⟨v, hx⟩).trans hlt.le
  · exact (Buffer.time_of_layer_batch (hph.ts ts rfl) hx).le

/-- Nothing else publishes. -/
theorem hist_step [Crc32] (hc : p.Consistent d rest) (hs : Step d p a o d' p') (ha : a ≠ .publish) :
    (p'.store d').hist = (p.store d).hist ∧ p'.oracle.visible = p.oracle.visible := by
  cases hs with
  | appendCommit hl =>
      exact ⟨congrArg Store.hist (store_appendCommit hc.phase hc.conflicts hl), rfl⟩
  | publish => exact absurd rfl ha
  | _ => exact ⟨rfl, rfl⟩

/-- The commit that appends is under way. -/
theorem pending_of_appendTs {ts : ℕ} (h : p.appendTs = some ts) :
    ∃ c, p.commit.pending = some c := by
  unfold appendTs at h
  split at h
  case h_1 c ts hc => exact ⟨c, by rw [hc]; rfl⟩
  case h_2 c ts hc => exact ⟨c, by rw [hc]; rfl⟩
  case h_3 c ts n hc => exact ⟨c, by rw [hc]; rfl⟩
  case h_4 => cases h

/-- What a commit checks: nothing published after its timestamp has a key of its buffer. -/
theorem le_of_not_conflict (hco : p.Conflicts) (hr : p.reader i = some r) (hg : r.registered)
    (hx : ¬ p.oracle.conflict (some r.readTs) r.buffer) :
    ∀ k ∈ r.buffer.keys, ∀ n, (k, n) ∈ p.published → n ≤ r.readTs := by
  intro k hk n hn
  by_contra hlt
  obtain ⟨ts, hts, hle⟩ := hco.kept _ (users_pos (getElem?_of_reader hr) hg) (k, n) hn
    (Nat.lt_of_not_le hlt)
  exact hx (Oracle.conflict_iff.mpr ⟨k, hk, ts, hts, (Nat.lt_of_not_le hlt).trans_le hle⟩)

theorem orderly_answered (h : r.Orderly) : ∀ r' ∈ r.answered, r'.Orderly ∧ r'.readTs = r.readTs := by
  intro r' hr'
  rw [uses_of_answered hr']
  exact ⟨h, rfl⟩

/-- A transaction that has ended and misses no lookup. -/
theorem orderly_consumed {tx : UInt64} {st : State} (hk : r.kind = .transaction tx) (hst : r.state = some st)
    (hp : r.pending = []) : Reader.Orderly { r with buffer := .empty, consumed := true } where
  consumed _ := ⟨by rw [hst]; rfl, by rw [Reader.registered, hk]⟩
  pending k hm := by
    rw [hp] at hm
    cases hm

theorem consumed_of_asks (h : r.Orderly) (ha : r.asks k) : r.consumed = false := by
  have hc := h.consumed
  unfold Reader.registered at hc
  unfold Reader.asks at ha
  cases hk : r.kind with
  | get k' =>
      rw [hk] at hc
      exact Bool.eq_false_iff.mpr fun hu => nomatch (hc hu).2
  | snapshot =>
      rw [hk] at ha
      simpa using ha
  | transaction tx =>
      rw [hk] at ha
      simpa using ha

theorem isolated_step [Crc32] (h : p.Isolated d) (hc : p.Consistent d rest)
    (hm : ∀ i ∈ a.moves, ∀ r ∈ p.reader i, r.pending = []) (hs : Step d p a o d' p') :
    p'.Isolated d' := by
  have hco := hc.conflicts
  have hhist := hist_step hc hs
  have hlock := fun c (hl : p.commit = c) =>
    @LowDB.Isolated.lock (p.store d).hist p.published c p'.commit p.readers (hl ▸ h)
  cases hs with
  | set hl =>
      apply hlock _ hl
      intro i b hb
      rw [pendingOf_eq rfl] at hb
      cases hb
  | commitEmpty hr hk hst hu =>
      refine h.set_free (getElem?_of_reader hr) hu fun r' hr' => ?_
      cases hr'
      exact ⟨orderly_consumed hk hst (hm _ rfl _ hr), rfl⟩
  | conflict hr hk hst hu =>
      refine h.set_free (getElem?_of_reader hr) hu fun r' hr' => ?_
      cases hr'
      exact ⟨orderly_consumed hk hst (hm _ rfl _ hr), rfl⟩
  | @commit i r tx st hr hk hst hu hb hl hx =>
      unfold Isolated at h
      rw [hl] at h
      have hg : r.registered := by rw [Reader.registered, hk]
      exact h.commit (getElem?_of_reader hr) hk hst (hm _ rfl _ hr) (le_of_not_conflict hco hr hg hx)
  | stamp hl => exact hlock _ hl fun _ _ hb => hb
  | appendBegin hl => exact hlock _ hl fun _ _ hb => hb
  | appendBatch hl => exact hlock _ hl fun _ _ hb => hb
  | refuse => exact h.unlock rfl
  | appendCommit hl =>
      unfold Isolated
      rw [(hhist fun ha => Act.noConfusion ha).1]
      exact hlock _ hl fun _ _ hb => hb
  | appendFails => exact h.unlock rfl
  | put hl => exact hlock _ hl fun _ _ hb => hb
  | record hl => exact hlock _ hl fun _ _ hb => hb
  | publish hl =>
      unfold Isolated
      rw [hist_publish hc.phase hco hl rfl]
      exact h.publish rfl
  | watermark => exact h.unlock rfl
  | prune => exact h.unlock rfl
  | finish => exact h.unlock rfl
  | freeze => exact h.unlock rfl
  | createLog => exact h.unlock rfl
  | createLogFails => exact h.unlock rfl
  | freezeFails => exact h.unlock rfl
  | swap => exact h.unlock rfl
  | retire => exact h.miss _
  | snapshot => exact h.begin hist_le _
  | transaction => exact h.begin hist_le _
  | get => exact h.begin hist_le _
  | capture hr hst =>
      have ho := h.orderly _ _ (getElem?_of_reader hr)
      have hu : Reader.consumed _ = false := Bool.eq_false_iff.mpr fun hu => by
        have hsome := (ho.consumed hu).1
        rw [hst] at hsome
        cases hsome
      refine h.set_free (getElem?_of_reader hr) hu fun r' hr' => ?_
      cases hr'
      exact ⟨⟨fun hu => ⟨rfl, (ho.consumed hu).2⟩, ho.pending⟩, rfl⟩
  | write hr hk hst hu =>
      refine h.set_free (getElem?_of_reader hr) hu fun r' hr' => ?_
      cases hr'
      refine ⟨⟨fun hu' => absurd (hu.symm.trans hu') Bool.false_ne_true, fun k hp => ?_⟩, rfl⟩
      rw [hm _ rfl _ hr] at hp
      cases hp
  | searchAbsent hr hst ha hb =>
      have ho := h.orderly _ _ (getElem?_of_reader hr)
      have hu := consumed_of_asks ho ha
      refine h.set_free (getElem?_of_reader hr) hu fun r' hr' => ?_
      cases hr'
      refine ⟨⟨ho.consumed, fun k hk => ?_⟩, rfl⟩
      rcases List.mem_cons.mp hk with rfl | hk
      · exact ⟨hu, hb⟩
      · exact ho.pending k hk
  | searchMems hr hst ha =>
      have ho := h.orderly _ _ (getElem?_of_reader hr)
      exact h.set_free (getElem?_of_reader hr) (consumed_of_asks ho ha) (orderly_answered ho)
  | @searchTables i r k hr hk =>
      have ho := h.orderly _ _ (getElem?_of_reader hr)
      have ho' : Reader.Orderly { r with pending := r.pending.erase k } :=
        ⟨ho.consumed, fun k hk => ho.pending k (List.mem_of_mem_erase hk)⟩
      exact h.set_free (getElem?_of_reader hr) (ho.pending k hk).1 (orderly_answered ho')
  | @drop i r hr hg hst hh =>
      refine h.set (getElem?_of_reader hr) (fun _ hr' => absurd hr' (Option.not_mem_none _)) fun b hb => ?_
      obtain ⟨c, hc, -⟩ := Option.map_eq_some_iff.mp hb
      obtain ⟨hc, hi⟩ := Option.filter_eq_some_iff.mp hc
      exact absurd (handle_of_pending hc ▸ of_decide_eq_true hi) hh
  | cancel hr hst =>
      have ho := h.orderly _ _ (getElem?_of_reader hr)
      refine h.set_free (getElem?_of_reader hr) (Bool.eq_false_iff.mpr fun hu => ?_)
        fun _ hr' => absurd hr' (Option.not_mem_none _)
      obtain ⟨hsome, hg⟩ := ho.consumed hu
      rcases hst with hst | hst
      · rw [Option.isNone_iff_eq_none.mp hst] at hsome
        cases hsome
      · cases hg.symm.trans hst
  | _ => exact h

end Process

end LowDB
