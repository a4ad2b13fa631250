import LowDB.Common

/-! # The oracle

`transaction/src/oracle.rs`: the counters, the table of timestamps in use and the map of recently
written keys.  Only what a single atomic operation does is defined here; `Oracle::commit` takes many
steps, which `Engine/System.lean` puts together.

The table of timestamps is a `BTreeMap` from a timestamp to the number of its users.  `count` reads
it, and `count_incr` and `count_decr` say what `begin` and `end` do to it. -/

namespace LowDB

/-! ### The table of timestamps in use -/

/-- `BTreeMap<u64, u64>`. -/
structure Active where
  counts : List (ℕ × ℕ)
  sorted : counts.Pairwise fun a b => a.1 < b.1

namespace Active

def incrIn (ts : ℕ) : List (ℕ × ℕ) → List (ℕ × ℕ)
  | [] => [(ts, 1)]
  | (t, n) :: rest =>
    if ts < t then (ts, 1) :: (t, n) :: rest
    else if t = ts then (t, n + 1) :: rest
    else (t, n) :: incrIn ts rest

def decrIn (ts : ℕ) : List (ℕ × ℕ) → List (ℕ × ℕ)
  | [] => []
  | (t, n) :: rest =>
    if t = ts then (if n - 1 = 0 then rest else (t, n - 1) :: rest)
    else (t, n) :: decrIn ts rest

def countIn (ts : ℕ) : List (ℕ × ℕ) → ℕ
  | [] => 0
  | (t, n) :: rest => if t = ts then n else countIn ts rest

variable {l : List (ℕ × ℕ)} {ts t n : ℕ}

theorem mem_incrIn {x : ℕ × ℕ} (h : x ∈ incrIn ts l) : x.1 = ts ∨ ∃ y ∈ l, y.1 = x.1 := by
  induction l with
  | nil => exact .inl (List.mem_singleton.mp h ▸ rfl)
  | cons y rest ih =>
      obtain ⟨t, n⟩ := y
      unfold incrIn at h
      split_ifs at h with hlt heq
      · cases List.mem_cons.mp h with
        | inl h => exact .inl (h ▸ rfl)
        | inr h => exact .inr ⟨x, h, rfl⟩
      · cases List.mem_cons.mp h with
        | inl h => exact .inl (h ▸ heq)
        | inr h => exact .inr ⟨x, List.mem_cons_of_mem _ h, rfl⟩
      · cases List.mem_cons.mp h with
        | inl h => exact .inr ⟨_, List.mem_cons_self, h ▸ rfl⟩
        | inr h => exact (ih h).imp_right fun ⟨y, hy, e⟩ => ⟨y, List.mem_cons_of_mem _ hy, e⟩

theorem mem_decrIn {x : ℕ × ℕ} (h : x ∈ decrIn ts l) : ∃ y ∈ l, y.1 = x.1 := by
  induction l with
  | nil => cases h
  | cons y rest ih =>
      obtain ⟨t, n⟩ := y
      unfold decrIn at h
      split_ifs at h
      · exact ⟨x, List.mem_cons_of_mem _ h, rfl⟩
      · cases List.mem_cons.mp h with
        | inl h => exact ⟨_, List.mem_cons_self, h ▸ rfl⟩
        | inr h => exact ⟨x, List.mem_cons_of_mem _ h, rfl⟩
      · cases List.mem_cons.mp h with
        | inl h => exact ⟨_, List.mem_cons_self, h ▸ rfl⟩
        | inr h => exact (ih h).imp fun y hy => ⟨List.mem_cons_of_mem _ hy.1, hy.2⟩

theorem sorted_incrIn (h : l.Pairwise fun a b => a.1 < b.1) :
    (incrIn ts l).Pairwise fun a b => a.1 < b.1 := by
  induction l with
  | nil => exact List.pairwise_singleton _ _
  | cons y rest ih =>
      obtain ⟨t, n⟩ := y
      obtain ⟨hlt, hrest⟩ := List.pairwise_cons.mp h
      unfold incrIn
      split_ifs with hts heq
      · refine List.pairwise_cons.mpr ⟨fun x hx => ?_, h⟩
        cases List.mem_cons.mp hx with
        | inl hx => exact hx ▸ hts
        | inr hx => exact hts.trans (hlt x hx)
      · exact List.pairwise_cons.mpr ⟨hlt, hrest⟩
      · refine List.pairwise_cons.mpr ⟨fun x hx => ?_, ih hrest⟩
        cases mem_incrIn hx with
        | inl hx => omega
        | inr hx =>
            obtain ⟨y, hy, he⟩ := hx
            exact he ▸ hlt y hy

theorem sorted_decrIn (h : l.Pairwise fun a b => a.1 < b.1) :
    (decrIn ts l).Pairwise fun a b => a.1 < b.1 := by
  induction l with
  | nil => exact h
  | cons y rest ih =>
      obtain ⟨t, n⟩ := y
      obtain ⟨hlt, hrest⟩ := List.pairwise_cons.mp h
      unfold decrIn
      split_ifs
      · exact hrest
      · exact List.pairwise_cons.mpr ⟨hlt, hrest⟩
      · refine List.pairwise_cons.mpr ⟨fun x hx => ?_, ih hrest⟩
        obtain ⟨y, hy, he⟩ := mem_decrIn hx
        exact he ▸ hlt y hy

theorem countIn_of_lt (h : ∀ x ∈ l, ts < x.1) : countIn ts l = 0 := by
  induction l with
  | nil => rfl
  | cons y rest ih =>
      obtain ⟨t, n⟩ := y
      have ht : ts < t := h _ List.mem_cons_self
      rw [countIn, if_neg (by omega), ih fun x hx => h x (List.mem_cons_of_mem _ hx)]

theorem countIn_incrIn (h : l.Pairwise fun a b => a.1 < b.1) :
    countIn t (incrIn ts l) = countIn t l + if t = ts then 1 else 0 := by
  induction l with
  | nil => simp [incrIn, countIn, eq_comm]
  | cons y rest ih =>
      obtain ⟨u, n⟩ := y
      obtain ⟨hlt, hrest⟩ := List.pairwise_cons.mp h
      unfold incrIn
      by_cases ht : t = ts
      · subst ht
        rw [if_pos rfl]
        split_ifs with hu heq
        · have hz : countIn t ((u, n) :: rest) = 0 := by
            apply countIn_of_lt
            intro x hx
            cases List.mem_cons.mp hx with
            | inl hx => exact hx ▸ hu
            | inr hx => exact hu.trans (hlt x hx)
          rw [countIn, if_pos rfl, hz]
        · simp [countIn, heq]
        · simp only [countIn, if_neg heq, ih hrest, if_true]
      · rw [if_neg ht, Nat.add_zero]
        split_ifs with hu heq
        · rw [countIn, if_neg (Ne.symm ht)]
          rfl
        · have hne : u ≠ t := fun h => ht (h ▸ heq)
          simp [countIn, hne]
        · simp only [countIn, ih hrest, if_neg ht, Nat.add_zero]

theorem countIn_decrIn (h : l.Pairwise fun a b => a.1 < b.1) :
    countIn t (decrIn ts l) = countIn t l - if t = ts then 1 else 0 := by
  induction l with
  | nil => simp [decrIn, countIn]
  | cons y rest ih =>
      obtain ⟨u, n⟩ := y
      obtain ⟨hlt, hrest⟩ := List.pairwise_cons.mp h
      unfold decrIn
      by_cases ht : t = ts
      · subst ht
        rw [if_pos rfl]
        split_ifs with hu hn
        · subst hu
          rw [countIn, if_pos rfl, hn]
          exact countIn_of_lt hlt
        · simp [countIn, hu]
        · simp only [countIn, if_neg hu, ih hrest, if_true]
      · rw [if_neg ht, Nat.sub_zero]
        split_ifs with hu hn
        · have hne : u ≠ t := fun h => ht (h ▸ hu)
          rw [countIn, if_neg hne]
        · have hne : u ≠ t := fun h => ht (h ▸ hu)
          simp [countIn, hne]
        · simp only [countIn, ih hrest, if_neg ht, Nat.sub_zero]

/-- A timestamp with users is an entry. -/
theorem mem_of_countIn_pos (h : 0 < countIn ts l) : (ts, countIn ts l) ∈ l := by
  induction l with
  | nil => exact absurd h (lt_irrefl 0)
  | cons y rest ih =>
      obtain ⟨t, n⟩ := y
      unfold countIn at h ⊢
      split_ifs at h ⊢ with ht
      · exact ht ▸ List.mem_cons_self
      · exact List.mem_cons_of_mem _ (ih h)

theorem countIn_of_mem (h : l.Pairwise fun a b => a.1 < b.1) (hm : (ts, n) ∈ l) :
    countIn ts l = n := by
  induction l with
  | nil => cases hm
  | cons y rest ih =>
      obtain ⟨t, m⟩ := y
      obtain ⟨hlt, hrest⟩ := List.pairwise_cons.mp h
      cases List.mem_cons.mp hm with
      | inl he =>
          cases he
          exact if_pos rfl
      | inr hm =>
          have hne : t ≠ ts := (hlt _ hm).ne
          rw [countIn, if_neg hne, ih hrest hm]

theorem pos_incrIn (h : ∀ x ∈ l, 0 < x.2) : ∀ x ∈ incrIn ts l, 0 < x.2 := by
  induction l with
  | nil => simp [incrIn]
  | cons y rest ih =>
      obtain ⟨t, n⟩ := y
      obtain ⟨hn, hrest⟩ := List.forall_mem_cons.mp h
      unfold incrIn
      split_ifs
      · exact List.forall_mem_cons.mpr ⟨Nat.one_pos, h⟩
      · exact List.forall_mem_cons.mpr ⟨Nat.succ_pos n, hrest⟩
      · exact List.forall_mem_cons.mpr ⟨hn, ih hrest⟩

theorem pos_decrIn (h : ∀ x ∈ l, 0 < x.2) : ∀ x ∈ decrIn ts l, 0 < x.2 := by
  induction l with
  | nil => exact h
  | cons y rest ih =>
      obtain ⟨t, n⟩ := y
      obtain ⟨hn, hrest⟩ := List.forall_mem_cons.mp h
      unfold decrIn
      split_ifs with _ hz
      · exact hrest
      · exact List.forall_mem_cons.mpr ⟨Nat.pos_of_ne_zero hz, hrest⟩
      · exact List.forall_mem_cons.mpr ⟨hn, ih hrest⟩

/-! The table itself. -/

def empty : Active := ⟨[], List.Pairwise.nil⟩

/-- `*active.entry(ts).or_default() += 1`. -/
def incr (a : Active) (ts : ℕ) : Active := ⟨incrIn ts a.counts, sorted_incrIn a.sorted⟩

/-- One user less, and no entry without users. -/
def decr (a : Active) (ts : ℕ) : Active := ⟨decrIn ts a.counts, sorted_decrIn a.sorted⟩

/-- The number of users of `ts`. -/
def count (a : Active) (ts : ℕ) : ℕ := countIn ts a.counts

/-- `active.first_key_value()`, the timestamp only. -/
def first (a : Active) : Option ℕ := a.counts.head?.map Prod.fst

theorem count_incr (a : Active) (ts t : ℕ) :
    (a.incr ts).count t = a.count t + if t = ts then 1 else 0 := countIn_incrIn a.sorted

theorem count_decr (a : Active) (ts t : ℕ) :
    (a.decr ts).count t = a.count t - if t = ts then 1 else 0 := countIn_decrIn a.sorted

/-- The first timestamp is the least one in use. -/
theorem first_le {a : Active} {ts : ℕ} (h : 0 < a.count ts) : ∃ m, a.first = some m ∧ m ≤ ts := by
  have hn := mem_of_countIn_pos h
  unfold first
  cases hc : a.counts with
  | nil => rw [hc] at hn; cases hn
  | cons y rest =>
      have hs := a.sorted
      rw [hc] at hn hs
      refine ⟨y.1, rfl, ?_⟩
      cases List.mem_cons.mp hn with
      | inl h => exact (congrArg Prod.fst h).ge
      | inr h => exact ((List.pairwise_cons.mp hs).1 _ h).le

/-- All timestamps in the table are at most `v`. -/
def Below (a : Active) (v : ℕ) : Prop := ∀ x ∈ a.counts, x.1 ≤ v

theorem Below.mono {a : Active} {v w : ℕ} (h : a.Below v) (hw : v ≤ w) : a.Below w :=
  fun x hx => (h x hx).trans hw

theorem Below.incr {a : Active} {v : ℕ} (h : a.Below v) (ht : ts ≤ v) : (a.incr ts).Below v := by
  intro x hx
  cases mem_incrIn hx with
  | inl hx => exact hx ▸ ht
  | inr hx =>
      obtain ⟨y, hy, he⟩ := hx
      exact he ▸ h y hy

theorem Below.decr {a : Active} {v : ℕ} (h : a.Below v) : (a.decr ts).Below v := by
  intro x hx
  obtain ⟨y, hy, he⟩ := mem_decrIn hx
  exact he ▸ h y hy

theorem Below.first {a : Active} {v m : ℕ} (h : a.Below v) (hm : a.first = some m) : m ≤ v := by
  unfold Active.first at hm
  cases hc : a.counts with
  | nil => rw [hc] at hm; cases hm
  | cons y rest =>
      rw [hc] at hm
      cases hm
      exact h y (hc ▸ List.mem_cons_self)

/-- No entry without users. -/
def Positive (a : Active) : Prop := ∀ x ∈ a.counts, 0 < x.2

namespace Positive

variable {a : Active}

theorem incr (h : a.Positive) : (a.incr ts).Positive := pos_incrIn h

theorem decr (h : a.Positive) : (a.decr ts).Positive := pos_decrIn h

/-- The entries are the timestamps in use, with their users. -/
theorem mem_iff (h : a.Positive) : (t, n) ∈ a.counts ↔ n = a.count t ∧ 0 < n := by
  constructor
  · intro hm
    exact ⟨(countIn_of_mem a.sorted hm).symm, h _ hm⟩
  · rintro ⟨rfl, hn⟩
    exact mem_of_countIn_pos hn

theorem count_first {m : ℕ} (h : a.Positive) (hm : a.first = some m) : 0 < a.count m := by
  obtain ⟨⟨t, n⟩, hx, rfl⟩ := Option.map_eq_some_iff.mp hm
  obtain ⟨hn, hpos⟩ := h.mem_iff.mp (List.mem_of_head? hx)
  exact hn ▸ hpos

end Positive

end Active

/-! ### Write buffers -/

/-- `BTreeMap<String, Value>`. -/
structure Buffer where
  entries : List (Str × Value)
  sorted : entries.Pairwise fun a b => a.1 < b.1

namespace Buffer

def insertIn (k : Str) (v : Value) : List (Str × Value) → List (Str × Value)
  | [] => [(k, v)]
  | (k', v') :: rest =>
    if k < k' then (k, v) :: (k', v') :: rest
    else if k' = k then (k, v) :: rest
    else (k', v') :: insertIn k v rest

theorem mem_insertIn {k : Str} {v : Value} {l : List (Str × Value)} {x : Str × Value}
    (h : x ∈ insertIn k v l) : x = (k, v) ∨ x ∈ l := by
  induction l with
  | nil => exact .inl (List.mem_singleton.mp h)
  | cons y rest ih =>
      obtain ⟨k', v'⟩ := y
      unfold insertIn at h
      split_ifs at h
      · exact List.mem_cons.mp h
      · exact (List.mem_cons.mp h).imp_right (List.mem_cons_of_mem _)
      · cases List.mem_cons.mp h with
        | inl h => exact .inr (h ▸ List.mem_cons_self)
        | inr h => exact (ih h).imp_right (List.mem_cons_of_mem _)

theorem sorted_insertIn {k : Str} {v : Value} {l : List (Str × Value)}
    (h : l.Pairwise fun a b => a.1 < b.1) :
    (insertIn k v l).Pairwise fun a b => a.1 < b.1 := by
  induction l with
  | nil => exact List.pairwise_singleton _ _
  | cons y rest ih =>
      obtain ⟨k', v'⟩ := y
      obtain ⟨hlt, hrest⟩ := List.pairwise_cons.mp h
      unfold insertIn
      split_ifs with hk he
      · refine List.pairwise_cons.mpr ⟨fun x hx => ?_, h⟩
        cases List.mem_cons.mp hx with
        | inl hx => exact hx ▸ hk
        | inr hx => exact hk.trans (hlt x hx)
      · exact List.pairwise_cons.mpr ⟨fun x hx => he ▸ hlt x hx, hrest⟩
      · refine List.pairwise_cons.mpr ⟨fun x hx => ?_, ih hrest⟩
        cases mem_insertIn hx with
        | inl hx => exact hx ▸ lt_of_le_of_ne (not_lt.mp hk) he
        | inr hx => exact hlt x hx

theorem keys_insertIn {k u : Str} {v : Value} {l : List (Str × Value)} :
    u ∈ (insertIn k v l).map Prod.fst ↔ u = k ∨ u ∈ l.map Prod.fst := by
  induction l with
  | nil => simp [insertIn]
  | cons x xs ih =>
      obtain ⟨k', v'⟩ := x
      unfold insertIn
      split_ifs with hlt he
      · simp
      · simp [he]
      · rw [List.map_cons, List.mem_cons, ih, List.map_cons, List.mem_cons]
        exact or_left_comm

def empty : Buffer := ⟨[], List.Pairwise.nil⟩

/-- `self.buffer.insert(key, value)`. -/
def insert (b : Buffer) (k : Str) (v : Value) : Buffer :=
  ⟨insertIn k v b.entries, sorted_insertIn b.sorted⟩

/-- `self.buffer.get(key)`. -/
def get (b : Buffer) (k : Str) : Option Value :=
  (b.entries.find? fun e => e.1 = k).map Prod.snd

/-- `BTreeMap::from([(key, value)])`. -/
def single (k : Str) (v : Value) : Buffer := ⟨[(k, v)], List.pairwise_singleton _ _⟩

def isEmpty (b : Buffer) : Bool := b.entries.isEmpty

def keys (b : Buffer) : List Str := b.entries.map Prod.fst

/-- The batch of a commit: all entries with its timestamp. -/
def batch (b : Buffer) (ts : ℕ) : List Entry :=
  b.entries.map fun e => (⟨e.1, UInt64.ofNat ts⟩, e.2)

theorem mem_keys_insert {b : Buffer} {k u : Str} {v : Value} :
    u ∈ (b.insert k v).keys ↔ u = k ∨ u ∈ b.keys := keys_insertIn

theorem nodup_keys (b : Buffer) : b.keys.Nodup :=
  List.pairwise_map.mpr (b.sorted.imp fun h => h.ne)

theorem find?_insertIn {k u : Str} {v : Value} {l : List (Str × Value)} :
    (insertIn k v l).find? (fun e => e.1 = u) =
      if k = u then some (k, v) else l.find? fun e => e.1 = u := by
  induction l with
  | nil => by_cases hu : k = u <;> simp [insertIn, hu]
  | cons x xs ih =>
      obtain ⟨k', v'⟩ := x
      unfold insertIn
      by_cases hu : k = u
      · have hne : k' ≠ k → k' ≠ u := fun h h' => h (h'.trans hu.symm)
        split_ifs with hlt he
        · simp [hu]
        · simp [hu]
        · rw [List.find?_cons_of_neg (by simpa using hne he), ih, if_pos hu]
      · split_ifs with hlt he
        · simp [hu]
        · simp [he, hu]
        · simp [List.find?_cons, ih, hu]

theorem get_insert {b : Buffer} {k u : Str} {v : Value} :
    (b.insert k v).get u = if k = u then some v else b.get u := by
  unfold get insert
  rw [find?_insertIn]
  split_ifs <;> rfl

theorem get_eq_some_iff {b : Buffer} {k : Str} {v : Value} :
    b.get k = some v ↔ (k, v) ∈ b.entries := by
  unfold get
  constructor
  · intro h
    obtain ⟨⟨k', v'⟩, hf, rfl⟩ := Option.map_eq_some_iff.mp h
    have hk : k' = k := by simpa using List.find?_some hf
    exact hk ▸ List.mem_of_find?_eq_some hf
  · intro h
    cases hf : b.entries.find? fun e => e.1 = k with
    | none =>
        have hne := List.find?_eq_none.mp hf (k, v) h
        simp at hne
    | some x =>
        have hx : x.1 = k := by simpa using List.find?_some hf
        have heq := List.inj_on_of_nodup_map b.nodup_keys (List.mem_of_find?_eq_some hf) h hx
        rw [heq]
        rfl

theorem get_eq_none_iff {b : Buffer} {k : Str} : b.get k = none ↔ k ∉ b.keys := by
  unfold get keys
  rw [Option.map_eq_none_iff, List.find?_eq_none, List.mem_map]
  constructor
  · rintro h ⟨x, hx, he⟩
    simpa [he] using h x hx
  · intro h x hx he
    exact h ⟨x, hx, by simpa using he⟩

/-- The keys of a buffer that has been written to. -/
theorem mem_keys_foldl {b : Buffer} {ks : List Str} {u : Str} {v : Value} :
    u ∈ (ks.foldl (fun b k => b.insert k v) b).keys ↔ u ∈ ks ∨ u ∈ b.keys := by
  induction ks generalizing b with
  | nil => simp
  | cons k ks ih =>
      rw [List.foldl_cons, ih, mem_keys_insert, List.mem_cons]
      exact or_left_comm.trans or_assoc.symm

theorem value_foldl {b : Buffer} {ks : List Str} {v : Value}
    (h : ∀ x ∈ b.entries, x.2 = v) :
    ∀ x ∈ (ks.foldl (fun b k => b.insert k v) b).entries, x.2 = v := by
  induction ks generalizing b with
  | nil => exact h
  | cons k ks ih =>
      apply ih
      intro x hx
      cases mem_insertIn hx with
      | inl hx => rw [hx]
      | inr hx => exact h x hx

end Buffer

/-! ### The oracle -/

/-- The counters, the map `commit_lock` guards, and the table of timestamps. -/
structure Oracle where
  nextSeq : ℕ
  visible : ℕ
  txId : ℕ
  recent : Str → Option ℕ
  active : Active

namespace Oracle

def new (maxSeq txId : ℕ) : Oracle where
  nextSeq := maxSeq + 1
  visible := maxSeq
  txId := txId
  recent := fun _ => none
  active := .empty

/-- `self.tx_id.fetch_add(1)`: the state afterwards. -/
def nextTxId (o : Oracle) : Oracle := { o with txId := o.txId + 1 }

/-- `begin`: the state afterwards; the timestamp is `o.visible`. -/
def begin (o : Oracle) : Oracle := { o with active := o.active.incr o.visible }

/-- `end`. -/
def finish (o : Oracle) (readTs : ℕ) : Oracle := { o with active := o.active.decr readTs }

/-- The conflict check of `commit`. -/
def conflict (o : Oracle) (readTs : Option ℕ) (b : Buffer) : Bool :=
  match readTs with
  | none => false
  | some r => b.keys.any fun k => (o.recent k).any fun ts => r < ts

/-- `self.next_seq.fetch_add(1)`: the state afterwards. -/
def nextTs (o : Oracle) : Oracle := { o with nextSeq := o.nextSeq + 1 }

/-- `for k in buffer.into_keys() { recent.insert(k, commit_ts); }`. -/
def record (o : Oracle) (b : Buffer) (ts : ℕ) : Oracle :=
  { o with recent := fun k => if k ∈ b.keys then some ts else o.recent k }

def publish (o : Oracle) (ts : ℕ) : Oracle := { o with visible := ts }

/-- The least timestamp in use, or the one just published. -/
def watermark (o : Oracle) (ts : ℕ) : ℕ := o.active.first.getD ts

/-- `recent.retain(|_, ts| *ts > watermark)`. -/
def prune (o : Oracle) (watermark : ℕ) : Oracle :=
  { o with recent := fun k => (o.recent k).filter fun ts => watermark < ts }

theorem conflict_iff {o : Oracle} {r : ℕ} {b : Buffer} :
    o.conflict (some r) b ↔ ∃ k ∈ b.keys, ∃ ts, o.recent k = some ts ∧ r < ts := by
  simp [conflict, Option.any_eq_true]

end Oracle

end LowDB
