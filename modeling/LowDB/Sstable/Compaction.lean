import LowDB.Lib.Merge
import LowDB.Sstable.Scan

/-! # Compaction

`sstable/src/scan/merge.rs`, `compaction.rs` and `scan.rs`.  `MergeScan` merges the inputs by key,
lower inputs first among equals; `CompactionScan` holds back one entry, the newest of its user key,
and decides on it when the next user key arrives; `compact` writes what comes out to a new table.

The entry that is held when the inputs end is written whatever it is.  So the output has the newest
version of every user key whose newest version is a `Set`, and nothing else, exactly if the greatest
user key is not deleted (`compact_iff`). -/

namespace LowDB

open Merging

/-! ### The merging scan -/

structure HeapKey where
  key : Key
  idx : ℕ
deriving DecidableEq

namespace HeapKey

theorem lex_injective : Function.Injective (fun h : HeapKey => toLex (h.key, h.idx)) := by
  rintro ⟨k, i⟩ ⟨k', i'⟩ h
  simp only [EmbeddingLike.apply_eq_iff_eq, Prod.mk.injEq] at h
  rw [h.1, h.2]

/-- `impl Ord for HeapKey`. -/
instance : LinearOrder HeapKey := LinearOrder.lift' _ lex_injective

theorem lt_iff {a b : HeapKey} : a < b ↔ a.key < b.key ∨ a.key = b.key ∧ a.idx < b.idx :=
  Prod.Lex.toLex_lt_toLex

end HeapKey

/-- `heap`, a binary heap of `Reverse<HeapKey>`, is the list of what it holds in the order in which it
is popped. -/
structure MergeScan where
  scans : List TableScan
  pending : List (Option Value)
  heap : List HeapKey

namespace MergeScan

variable [Crc32]

def advance (m : MergeScan) (i : ℕ) : DbResult MergeScan :=
  match m.scans[i]? with
  | none => .error (.invalidState "index out of bounds")  -- a panic
  | some t => do
    match ← t.next with
    | (some (k, v), t) =>
      return ⟨m.scans.set i t, m.pending.set i (some v), m.heap.orderedInsert (· ≤ ·) ⟨k, i⟩⟩
    | (none, t) => return ⟨m.scans.set i t, m.pending.set i none, m.heap⟩

def new (scans : List TableScan) : DbResult MergeScan :=
  (List.range scans.length).foldlM advance ⟨scans, List.replicate scans.length none, []⟩

/-- `MergeScan::next`. -/
def next (m : MergeScan) : DbResult (Option Entry × MergeScan) :=
  match m.heap with
  | [] => .ok (none, m)
  | ⟨key, idx⟩ :: heap =>
    match (m.pending[idx]?).join with
    | none => .error (.invalidState "pending set")
    | some v => do
      let m ← advance ⟨m.scans, m.pending.set idx none, heap⟩ idx
      return (some (key, v), m)

end MergeScan

/-! ### The compacting scan -/

structure CompactionScan where
  curr : Option Entry
  scan : MergeScan

section code
variable [Crc32]

namespace CompactionScan

def new (scan : MergeScan) : DbResult CompactionScan := do
  let (curr, scan) ← scan.next
  return ⟨curr, scan⟩

/-- At most `n` rounds of the loop of `CompactionScan::next`. -/
def nextN : ℕ → CompactionScan → DbResult (Option Entry × CompactionScan)
  | 0, _ => .error .eof
  | n + 1, c => do
    match ← c.scan.next with
    | (none, scan) => return (c.curr, ⟨none, scan⟩)
    | (some e, scan) =>
      match c.curr with
      | some curr =>
        if curr.1.user ≠ e.1.user then
          if curr.2 ≠ .delete then return (some curr, ⟨some e, scan⟩)
          else nextN n ⟨some e, scan⟩
        else nextN n ⟨some curr, scan⟩
      | none => nextN n ⟨none, scan⟩

def next (n : ℕ) (c : CompactionScan) : DbResult (Option Entry × CompactionScan) :=
  if c.curr.isNone then .ok (none, c) else nextN n c

end CompactionScan

/-- At most `n` rounds of the loop of `compact`, and then `finish`. -/
def compactN (rounds : ℕ) : ℕ → CompactionScan → SSTableWriter →
    DbResult (Option (Bytes × SSTableMeta))
  | 0, _, _ => .error .eof
  | n + 1, c, w => do
    match ← c.next rounds with
    | (some e, c) =>
      let w ← w.add e.1 e.2
      compactN rounds n c w
    | (none, _) => w.finish

/-- `compact`: the bytes of the output and its metadata.  An entry takes at least one byte, so as many
rounds as there are bytes are enough. -/
def compact (inputs : List TableScan) : DbResult (Option (Bytes × SSTableMeta)) := do
  let rounds := (inputs.map fun t => t.r.length).sum + 2
  let m ← MergeScan.new inputs
  let c ← CompactionScan.new m
  compactN rounds rounds c .create

/-! ### What the merging scan returns -/

omit [Crc32] in
theorem pairwise_orderedInsert {a : HeapKey} {heap : List HeapKey} (h : heap.Pairwise (· < ·))
    (ha : a ∉ heap) : (heap.orderedInsert (· ≤ ·) a).Pairwise (· < ·) := by
  induction heap with
  | nil => exact List.pairwise_singleton _ _
  | cons b heap ih =>
      obtain ⟨hb, hheap⟩ := List.pairwise_cons.mp h
      have hne : a ≠ b := fun he => ha (he ▸ List.mem_cons_self)
      rw [List.orderedInsert_cons]
      split_ifs with hle
      · have hlt : a < b := lt_of_le_of_ne hle hne
        refine List.pairwise_cons.mpr ⟨fun c hc => ?_, h⟩
        rcases List.mem_cons.mp hc with rfl | hc
        · exact hlt
        · exact hlt.trans (hb c hc)
      · refine List.pairwise_cons.mpr ⟨fun c hc => ?_, ih hheap fun h => ha (by simp [h])⟩
        rcases (List.mem_orderedInsert _).mp hc with rfl | hc
        · exact not_le.mp hle
        · exact hb c hc

namespace MergeScan

/-- The scan `i` has `l` to come, and none of it is in the heap. -/
structure Unloaded (m : MergeScan) (i : ℕ) (l : List Entry) : Prop where
  scan : ∃ t, m.scans[i]? = some t ∧ t.Yields l
  pending : i < m.pending.length
  heap : ∀ h ∈ m.heap, h.idx ≠ i

/-- The first entry of `l`, which the input `i` has to come, is in the heap. -/
def Loaded (m : MergeScan) (i : ℕ) : List Entry → Prop
  | [] => m.Unloaded i []
  | e :: es =>
    (∃ t, m.scans[i]? = some t ∧ t.Yields es) ∧ m.pending[i]? = some (some e.2) ∧
      ⟨e.1, i⟩ ∈ m.heap ∧ ∀ h ∈ m.heap, h.idx = i → h = ⟨e.1, i⟩

variable {m : MergeScan} {i j : ℕ} {l : List Entry} {ls : List (List Entry)}

/-- What is known of an input depends on its own scan, pending value and heap entries. -/
theorem Loaded.congr {m' : MergeScan} (h : m.Loaded j l) (hs : m'.scans[j]? = m.scans[j]?)
    (hp : m'.pending[j]? = m.pending[j]?) (hh : ∀ x : HeapKey, x.idx = j → (x ∈ m'.heap ↔ x ∈ m.heap)) :
    m'.Loaded j l := by
  have hlen : j < m.pending.length → j < m'.pending.length := by
    intro hlt
    have : (m'.pending[j]?).isSome := by rw [hp]; simpa using hlt
    simpa using this
  cases l with
  | nil =>
      obtain ⟨h₁, h₂, h₃⟩ := h
      exact ⟨hs ▸ h₁, hlen h₂, fun x hx hi => h₃ x ((hh x hi).mp hx) hi⟩
  | cons e es =>
      obtain ⟨h₁, h₂, h₃, h₄⟩ := h
      exact ⟨hs ▸ h₁, hp.trans h₂, (hh _ rfl).mpr h₃, fun x hx hi => h₄ x ((hh x hi).mp hx) hi⟩

theorem Unloaded.congr {m' : MergeScan} (h : m.Unloaded j l) (hs : m'.scans[j]? = m.scans[j]?)
    (hp : m'.pending.length = m.pending.length)
    (hh : ∀ x : HeapKey, x.idx = j → (x ∈ m'.heap ↔ x ∈ m.heap)) : m'.Unloaded j l :=
  ⟨hs ▸ h.scan, hp ▸ h.pending, fun x hx hi => h.heap x ((hh x hi).mp hx) hi⟩

/-- `advance` loads one input and changes nothing of the others. -/
theorem advance_eq (h : m.Unloaded i l) (hheap : m.heap.Pairwise (· < ·)) :
    ∃ m', m.advance i = .ok m' ∧ m'.Loaded i l ∧ m'.heap.Pairwise (· < ·) ∧
      m'.pending.length = m.pending.length ∧
      ∀ j ≠ i, m'.scans[j]? = m.scans[j]? ∧ m'.pending[j]? = m.pending[j]? ∧
        ∀ x : HeapKey, x.idx = j → (x ∈ m'.heap ↔ x ∈ m.heap) := by
  obtain ⟨t, ht, hy⟩ := h.scan
  have hlt : i < m.scans.length := (List.getElem?_eq_some_iff.mp ht).1
  cases l with
  | nil =>
      have hn : t.next = .ok (none, t) := hy
      refine ⟨⟨m.scans.set i t, m.pending.set i none, m.heap⟩, ?_, ⟨?_, ?_, h.heap⟩, hheap, ?_, ?_⟩
      · simp only [advance, ht, bind, Except.bind, hn]
        rfl
      · exact ⟨t, List.getElem?_set_self hlt, hy⟩
      · rw [List.length_set]
        exact h.pending
      · exact List.length_set
      · intro j hj
        exact ⟨List.getElem?_set_ne hj.symm, List.getElem?_set_ne hj.symm, fun _ _ => Iff.rfl⟩
  | cons e es =>
      obtain ⟨t', hn, hy⟩ := hy
      have hnot : (⟨e.1, i⟩ : HeapKey) ∉ m.heap := fun hm => h.heap _ hm rfl
      refine ⟨⟨m.scans.set i t', m.pending.set i (some e.2),
        m.heap.orderedInsert (· ≤ ·) ⟨e.1, i⟩⟩, ?_, ⟨?_, ?_, ?_, ?_⟩, ?_, ?_, ?_⟩
      · simp only [advance, ht, bind, Except.bind, hn]
        rfl
      · exact ⟨t', List.getElem?_set_self hlt, hy⟩
      · exact List.getElem?_set_self h.pending
      · exact (List.mem_orderedInsert _).mpr (.inl rfl)
      · intro x hx hi
        rcases (List.mem_orderedInsert _).mp hx with rfl | hx
        · rfl
        · exact absurd hi (h.heap x hx)
      · exact pairwise_orderedInsert hheap hnot
      · exact List.length_set
      · intro j hj
        refine ⟨List.getElem?_set_ne hj.symm, List.getElem?_set_ne hj.symm, fun x hx => ?_⟩
        rw [List.mem_orderedInsert]
        refine or_iff_right fun he => hj ?_
        rw [← hx, he]

/-- Every input is loaded. -/
structure Ready (m : MergeScan) (ls : List (List Entry)) : Prop where
  strict : m.heap.Pairwise (· < ·)
  bound : ∀ h ∈ m.heap, h.idx < ls.length
  loaded : ∀ i l, ls[i]? = some l → m.Loaded i l

theorem new_eq {scans : List TableScan} (h : List.Forall₂ TableScan.Yields scans ls) :
    ∃ m, MergeScan.new scans = .ok m ∧ m.Ready ls := by
  have hlen := h.length_eq
  suffices hgen : ∀ n ≤ scans.length, ∃ m : MergeScan,
      (List.range n).foldlM advance ⟨scans, List.replicate scans.length none, []⟩ = .ok m ∧
        m.heap.Pairwise (· < ·) ∧ (∀ x ∈ m.heap, x.idx < n) ∧
        m.pending.length = scans.length ∧
        ∀ i l, ls[i]? = some l → if i < n then m.Loaded i l else m.Unloaded i l by
    obtain ⟨m, hm, hs, hb, _, hl⟩ := hgen scans.length le_rfl
    refine ⟨m, hm, hs, fun x hx => hlen ▸ hb x hx, ?_⟩
    intro i l hi
    have hlt : i < scans.length := by
      rw [hlen]
      exact (List.getElem?_eq_some_iff.mp hi).1
    have := hl i l hi
    rwa [if_pos hlt] at this
  intro n
  induction n with
  | zero =>
      intro _
      refine ⟨_, rfl, List.Pairwise.nil, fun _ h => (nomatch h), List.length_replicate, ?_⟩
      intro i l hi
      rw [if_neg (Nat.not_lt_zero i)]
      obtain ⟨hlt, rfl⟩ := List.getElem?_eq_some_iff.mp hi
      have hlt' : i < scans.length := hlen ▸ hlt
      exact ⟨⟨scans[i], List.getElem?_eq_getElem hlt', h.get hlt' hlt⟩,
        by simpa using hlt', fun _ h => nomatch h⟩
  | succ n ih =>
      intro hn
      obtain ⟨m, hm, hs, hb, hp, hl⟩ := ih (by omega)
      have hlt : n < ls.length := by omega
      have hu : m.Unloaded n ls[n] := by
        have := hl n _ (List.getElem?_eq_getElem hlt)
        rwa [if_neg (lt_irrefl n)] at this
      obtain ⟨m', ha, hload, hs', hp', hother⟩ := advance_eq hu hs
      refine ⟨m', ?_, hs', ?_, hp'.trans hp, ?_⟩
      · rw [List.range_succ, List.foldlM_append, hm]
        simp only [bind, Except.bind, List.foldlM_cons, List.foldlM_nil, ha]
        rfl
      · intro x hx
        by_cases hxn : x.idx = n
        · omega
        · have := hb x (((hother x.idx hxn).2.2 x rfl).mp hx)
          omega
      · intro i l hi
        by_cases hin : i = n
        · subst hin
          rw [if_pos (Nat.lt_succ_self i)]
          obtain ⟨_, rfl⟩ := List.getElem?_eq_some_iff.mp hi
          exact hload
        · obtain ⟨h₁, h₂, h₃⟩ := hother i hin
          have hi' := hl i l hi
          by_cases hlt' : i < n
          · rw [if_pos hlt'] at hi'
            rw [if_pos (by omega)]
            exact hi'.congr h₁ h₂ h₃
          · rw [if_neg hlt'] at hi'
            rw [if_neg (by omega)]
            exact hi'.congr h₁ hp' h₃

/-- Without heads there is nothing to come. -/
theorem next_none (h : m.Ready ls) (hnil : m.heap = []) :
    m.next = .ok (none, m) ∧ ∀ l ∈ ls, l = [] := by
  refine ⟨by rw [next, hnil], ?_⟩
  intro l hl
  obtain ⟨i, hi⟩ := List.mem_iff_getElem?.mp hl
  have hload := h.loaded i l hi
  cases l with
  | nil => rfl
  | cons e es =>
      obtain ⟨_, _, hmem, _⟩ := hload
      rw [hnil] at hmem
      cases hmem

/-- The entry returned is the head with the least key, of the first input that has it. -/
theorem next_some (h : m.Ready ls) (hne : m.heap ≠ []) :
    ∃ i e es m', ls[i]? = some (e :: es) ∧ m.next = .ok (some e, m') ∧ m'.Ready (ls.set i es) ∧
      ∀ j ≠ i, ∀ b l, ls[j]? = some (b :: l) → (⟨e.1, i⟩ : HeapKey) < ⟨b.1, j⟩ := by
  obtain ⟨⟨key, idx⟩, heap, hheap⟩ := List.exists_cons_of_ne_nil hne
  have hlt : idx < ls.length := h.bound ⟨key, idx⟩ (by simp [hheap])
  have hi : ls[idx]? = some ls[idx] := List.getElem?_eq_getElem hlt
  have hload := h.loaded idx _ hi
  have hstrict := h.strict
  rw [hheap] at hstrict
  obtain ⟨hmin, hrest⟩ := List.pairwise_cons.mp hstrict
  cases hl : ls[idx] with
  | nil =>
      rw [hl] at hload
      exact absurd rfl (hload.heap ⟨key, idx⟩ (by simp [hheap]))
  | cons e es =>
      rw [hl] at hload hi
      obtain ⟨hscan, hpend, _, hhead⟩ := hload
      have hkey : key = e.1 := congrArg HeapKey.key (hhead ⟨key, idx⟩ (by simp [hheap]) rfl)
      subst hkey
      have hplt : idx < m.pending.length := (List.getElem?_eq_some_iff.mp hpend).1
      -- behind the head the heap has nothing of this input
      have hun : (⟨m.scans, m.pending.set idx none, heap⟩ : MergeScan).Unloaded idx es := by
        refine ⟨hscan, by simpa using hplt, ?_⟩
        intro x hx hxi
        have := hmin x hx
        rw [hhead x (by simp [hheap, hx]) hxi] at this
        exact lt_irrefl _ this
      obtain ⟨m', ha, hload', hs', _, hother⟩ := advance_eq hun hrest
      refine ⟨idx, e, es, m', hi, ?_, ⟨hs', ?_, ?_⟩, ?_⟩
      · simp only [next, hheap, hpend, Option.join_some, bind, Except.bind, ha]
        rfl
      · intro x hx
        rw [List.length_set]
        by_cases hxi : x.idx = idx
        · rwa [hxi]
        · exact h.bound x (by
            rw [hheap]
            exact List.mem_cons_of_mem _ (((hother x.idx hxi).2.2 x rfl).mp hx))
      · intro j l hj
        by_cases hji : j = idx
        · subst hji
          rw [List.getElem?_set_self hlt, Option.some_inj] at hj
          exact hj ▸ hload'
        · rw [List.getElem?_set_ne (Ne.symm hji)] at hj
          obtain ⟨h₁, h₂, h₃⟩ := hother j hji
          refine (h.loaded j l hj).congr h₁ (h₂.trans (List.getElem?_set_ne (Ne.symm hji))) ?_
          intro x hx
          rw [h₃ x hx, hheap, List.mem_cons]
          refine (or_iff_right fun he => hji ?_).symm
          rw [← hx, he]
      · intro j hj b l hjl
        obtain ⟨_, _, hmem, _⟩ := h.loaded j _ hjl
        rw [hheap] at hmem
        rcases List.mem_cons.mp hmem with he | hmem
        · exact absurd (congrArg HeapKey.idx he) hj
        · exact hmin _ hmem

/-- Repeated `next` returns the entries `es` in order, and then `None`. -/
def Yields : MergeScan → List Entry → Prop
  | m, [] => m.next = .ok (none, m)
  | m, e :: es => ∃ m', m.next = .ok (some e, m') ∧ Yields m' es

/-- The merging scan returns a merge of its inputs. -/
theorem yields_merge (h : m.Ready ls) : ∃ out, Merge Prod.fst ls out ∧ m.Yields out := by
  generalize hn : (ls.map List.length).sum = n
  induction n using Nat.strong_induction_on generalizing m ls with
  | _ n ih =>
      by_cases hnil : m.heap = []
      · obtain ⟨hnext, hall⟩ := next_none h hnil
        exact ⟨[], .nil hall, hnext⟩
      · obtain ⟨i, e, es, m', hi, hnext, hready, hless⟩ := next_some h hnil
        have hpre : ∀ j < i, ∀ b l, ls[j]? = some (b :: l) → e.1 < b.1 := by
          intro j hj b l hjl
          rcases HeapKey.lt_iff.mp (hless j hj.ne b l hjl) with hk | ⟨_, hk⟩
          · exact hk
          · exact absurd hk (Nat.lt_asymm hj)
        have hpost : ∀ j, i < j → ∀ b l, ls[j]? = some (b :: l) → e.1 ≤ b.1 := by
          intro j hj b l hjl
          rcases HeapKey.lt_iff.mp (hless j hj.ne' b l hjl) with hk | ⟨hk, _⟩
          · exact hk.le
          · exact hk.le
        have hshort : ((ls.set i es).map List.length).sum < n := by
          obtain ⟨hlt, hget⟩ := List.getElem?_eq_some_iff.mp hi
          have hset := congrArg (fun l => (l.map List.length).sum)
            (List.set_eq_take_append_cons_drop (l := ls) (i := i) (a := es))
          have hsplit := congrArg (fun l => (l.map List.length).sum)
            ((List.take_append_drop i ls).symm.trans
              (congrArg _ (List.drop_eq_getElem_cons hlt)))
          simp only [if_pos hlt, hget, List.map_append, List.map_cons, List.sum_append,
            List.sum_cons, List.length_cons] at hset hsplit
          omega
        obtain ⟨out, hm, hy⟩ := ih _ hshort hready rfl
        exact ⟨e :: out, .cons_set hi hpre hpost hm, m', hnext, hy⟩

end MergeScan

/-! ### What the compacting scan returns -/

/-- The entries returned when `curr` is held and the merge has `es` to come: the first entry of each
user key, without those that delete it, and the entry held at the end. -/
def held : Entry → List Entry → List Entry
  | curr, [] => [curr]
  | curr, e :: es =>
    if curr.1.user ≠ e.1.user then
      if curr.2 ≠ .delete then curr :: held e es else held e es
    else held curr es

/-- The entries returned for the merge `es`. -/
def compacted : List Entry → List Entry
  | [] => []
  | e :: es => held e es

namespace CompactionScan

variable {es : List Entry} {curr : Entry} {scan : MergeScan} {n rounds : ℕ}

/-- One entry is returned, and then either nothing is left or a later entry is held. -/
theorem nextN_eq (curr : Entry) (h : scan.Yields es) (hn : es.length < n) :
    ∃ e c', nextN n ⟨some curr, scan⟩ = .ok (some e, c') ∧
      ((c'.curr = none ∧ held curr es = [e]) ∨
        ∃ curr' es', c'.curr = some curr' ∧ c'.scan.Yields es' ∧ es'.length < es.length ∧
          held curr es = e :: held curr' es') := by
  induction es generalizing curr scan n with
  | nil =>
      obtain ⟨n, rfl⟩ : ∃ k, n = k + 1 := ⟨n - 1, by omega⟩
      have hnone : scan.next = .ok (none, scan) := h
      refine ⟨curr, ⟨none, scan⟩, ?_, .inl ⟨rfl, rfl⟩⟩
      simp only [nextN, bind, Except.bind, hnone]
      rfl
  | cons a es ih =>
      obtain ⟨n, rfl⟩ : ∃ k, n = k + 1 := ⟨n - 1, by omega⟩
      obtain ⟨scan', hnext, hy⟩ := h
      rw [List.length_cons] at hn
      have hi := fun c => ih c hy (n := n) (by omega)
      by_cases hu : curr.1.user = a.1.user
      · obtain ⟨e, c', he, hc⟩ := hi curr
        refine ⟨e, c', ?_, ?_⟩
        · simp only [nextN, bind, Except.bind, hnext, if_neg (not_not.mpr hu)]
          exact he
        · rw [held, if_neg (not_not.mpr hu)]
          refine hc.imp_right fun ⟨curr', es', h₁, h₂, h₃, h₄⟩ => ⟨curr', es', h₁, h₂, ?_, h₄⟩
          rw [List.length_cons]
          omega
      by_cases hd : curr.2 = .delete
      · obtain ⟨e, c', he, hc⟩ := hi a
        refine ⟨e, c', ?_, ?_⟩
        · simp only [nextN, bind, Except.bind, hnext, if_pos hu, if_neg (not_not.mpr hd)]
          exact he
        · rw [held, if_pos hu, if_neg (not_not.mpr hd)]
          refine hc.imp_right fun ⟨curr', es', h₁, h₂, h₃, h₄⟩ => ⟨curr', es', h₁, h₂, ?_, h₄⟩
          rw [List.length_cons]
          omega
      · refine ⟨curr, ⟨some a, scan'⟩, ?_, .inr ⟨a, es, rfl, hy, Nat.lt_succ_self _, ?_⟩⟩
        · simp only [nextN, bind, Except.bind, hnext, if_pos hu, if_pos hd]
          rfl
        · rw [held, if_pos hu, if_pos hd]

/-- `compact` writes what the scan returns. -/
theorem compactN_eq (h : scan.Yields es) (hr : es.length < rounds) (hn : es.length + 1 < n)
    (w : SSTableWriter) :
    compactN rounds n ⟨some curr, scan⟩ w =
      w.addAll (held curr es) >>= SSTableWriter.finish := by
  generalize hlen : es.length = len at hr hn
  induction len using Nat.strong_induction_on generalizing curr scan es n w with
  | _ len ih =>
      obtain ⟨n, rfl⟩ : ∃ k, n = k + 1 := ⟨n - 1, by omega⟩
      obtain ⟨e, c', he, hc⟩ := nextN_eq curr h (hlen ▸ hr)
      have hstep : compactN rounds (n + 1) ⟨some curr, scan⟩ w =
          w.add e.1 e.2 >>= compactN rounds n c' := by
        simp only [compactN, next, Option.isNone_some, Bool.false_eq_true, if_false, he]
        rfl
      rw [hstep]
      rcases hc with ⟨hnone, hheld⟩ | ⟨curr', es', hcurr, hy, hlt, hheld⟩
      · rw [hheld, SSTableWriter.addAll, List.foldlM_cons]
        cases w.add e.1 e.2 with
        | error err => rfl
        | ok w₁ =>
            obtain ⟨n, rfl⟩ : ∃ k, n = k + 1 := ⟨n - 1, by omega⟩
            obtain ⟨cu, sc⟩ := c'
            cases hnone
            rfl
      · rw [hheld, SSTableWriter.addAll, List.foldlM_cons]
        cases w.add e.1 e.2 with
        | error err => rfl
        | ok w₁ =>
            obtain ⟨cu, sc⟩ := c'
            cases hcurr
            exact ih es'.length (by omega) hy w₁ rfl (by omega) (by omega)

end CompactionScan

/-- **`compact` on inputs that yield `ls`** writes the entries held of a merge of `ls`. -/
theorem compact_eq {inputs : List TableScan} {ls : List (List Entry)}
    (h : List.Forall₂ TableScan.Yields inputs ls) :
    ∃ merged, Merge Prod.fst ls merged ∧ compact inputs = writeTable (compacted merged) := by
  obtain ⟨m, hm, hready⟩ := MergeScan.new_eq h
  obtain ⟨merged, hmerge, hy⟩ := MergeScan.yields_merge hready
  refine ⟨merged, hmerge, ?_⟩
  have hlen : merged.length ≤ (inputs.map fun t => t.r.length).sum := by
    apply hmerge.length_le.trans
    clear hm hready hmerge hy
    induction h with
    | nil => exact le_rfl
    | cons hy _ ih =>
        have := hy.length_le
        simp only [List.map_cons, List.sum_cons]
        omega
  simp only [compact, bind, Except.bind, hm]
  cases merged with
  | nil =>
      have hnone : m.next = .ok (none, m) := hy
      simp only [CompactionScan.new, bind, Except.bind, hnone]
      rfl
  | cons e es =>
      obtain ⟨m', hnext, hy⟩ := hy
      rw [List.length_cons] at hlen
      simp only [CompactionScan.new, bind, Except.bind, hnext]
      exact CompactionScan.compactN_eq hy (by omega) (by omega) _

/-! ### Which entries those are -/

section spec

variable {curr e : Entry} {es : List Entry} {ls : List (List Entry)} {u : Str}

omit [Crc32]

/-- The entries returned are the first ones of their user keys, without the deletions but for one of
the greatest user key. -/
theorem mem_held (h : (curr :: es).Pairwise fun a b => a.1 ≤ b.1) :
    e ∈ held curr es ↔ (curr :: es).find? (fun x => x.1.user = e.1.user) = some e ∧
      (e.2 ≠ .delete ∨ ∀ x ∈ curr :: es, x.1.user ≤ e.1.user) := by
  induction es generalizing curr with
  | nil =>
      rw [held, List.mem_singleton]
      constructor
      · rintro rfl
        exact ⟨by simp, .inr (by simp)⟩
      · rintro ⟨hf, _⟩
        exact (List.mem_singleton.mp (List.mem_of_find?_eq_some hf))
  | cons a es ih =>
      obtain ⟨hca, has⟩ := List.pairwise_cons.mp h
      by_cases hu : curr.1.user = a.1.user
      · -- `a` is an older version of the user key that is held
        have hsub : (curr :: es).Pairwise fun a b => a.1 ≤ b.1 :=
          List.pairwise_cons.mpr ⟨fun x hx => hca x (List.mem_cons_of_mem _ hx),
            (List.pairwise_cons.mp has).2⟩
        have hfind : (curr :: a :: es).find? (fun x => x.1.user = e.1.user) =
            (curr :: es).find? (fun x => x.1.user = e.1.user) := by
          simp only [List.find?_cons, hu]
          split <;> rfl
        rw [held, if_neg (not_not.mpr hu), ih hsub, hfind]
        simp [hu]
      · have hlt : ∀ x ∈ a :: es, curr.1.user < x.1.user := by
          have hca' := lt_of_le_of_ne (Key.user_le (hca a List.mem_cons_self)) hu
          intro x hx
          rcases List.mem_cons.mp hx with rfl | hx
          · exact hca'
          · exact hca'.trans_le (Key.user_le ((List.pairwise_cons.mp has).1 x hx))
        by_cases he : curr.1.user = e.1.user
        · have hnot : e ∉ held a es := fun hm =>
            (hlt e (List.mem_of_find?_eq_some ((ih has).mp hm).1)).ne he
          rw [List.find?_cons_of_pos (by simpa using he), Option.some_inj, held, if_pos hu]
          by_cases hd : curr.2 = .delete
          · rw [if_neg (not_not.mpr hd)]
            apply iff_of_false hnot
            rintro ⟨rfl, hlive | hmax⟩
            · exact hlive hd
            · exact (hmax a (by simp)).not_gt (hlt a List.mem_cons_self)
          · rw [if_pos hd, List.mem_cons, or_iff_left hnot]
            constructor
            · rintro rfl
              exact ⟨rfl, .inl hd⟩
            · exact fun ⟨h, _⟩ => h.symm
        · have hne : e ≠ curr := fun h => he (by rw [h])
          have hheld : e ∈ held curr (a :: es) ↔ e ∈ held a es := by
            rw [held, if_pos hu]
            split_ifs
            · rw [List.mem_cons, or_iff_right hne]
            · rfl
          have hfind : (curr :: a :: es).find? (fun x => x.1.user = e.1.user) =
              (a :: es).find? (fun x => x.1.user = e.1.user) :=
            List.find?_cons_of_neg (by simpa using he)
          rw [hheld, ih has, hfind]
          refine and_congr_right fun hf => or_congr_right ?_
          have hle := (hlt e (List.mem_of_find?_eq_some hf)).le
          exact ⟨fun h => List.forall_mem_cons.mpr ⟨hle, h⟩, fun h => (List.forall_mem_cons.mp h).2⟩

theorem held_users (h : (curr :: es).Pairwise fun a b => a.1 ≤ b.1) :
    (held curr es).Pairwise fun a b => a.1.user < b.1.user := by
  induction es generalizing curr with
  | nil => exact List.pairwise_singleton _ _
  | cons a es ih =>
      obtain ⟨hca, has⟩ := List.pairwise_cons.mp h
      rw [held]
      split_ifs with hu hd
      · refine List.pairwise_cons.mpr ⟨fun x hx => ?_, ih has⟩
        have hx' := List.mem_of_find?_eq_some ((mem_held has).mp hx).1
        have hca' := lt_of_le_of_ne (Key.user_le (hca a List.mem_cons_self)) hu
        rcases List.mem_cons.mp hx' with rfl | hx'
        · exact hca'
        · exact hca'.trans_le (Key.user_le ((List.pairwise_cons.mp has).1 x hx'))
      · exact ih has
      · exact ih (List.pairwise_cons.mpr ⟨fun x hx => hca x (List.mem_cons_of_mem _ hx),
          (List.pairwise_cons.mp has).2⟩)

/-- The version of `u` with the greatest sequence number over all inputs, the first one among
equals. -/
def winner (ls : List (List Entry)) (u : Str) : Option Entry :=
  ls.flatten.find? fun e =>
    e.1.user = u ∧ ∀ x ∈ ls.flatten, x.1.user = u → x.1.seq.toNat ≤ e.1.seq.toNat

theorem find?_eq_head?_filter {α : Type} (p : α → Bool) (l : List α) :
    l.find? p = (l.filter p).head? := List.head?_filter.symm

/-- The first entry of a user key in a merge of sorted inputs is its newest version. -/
theorem find_merge {merged : List Entry} (hm : Merge Prod.fst ls merged)
    (hs : Merging.Sorted Prod.fst ls) (u : Str) :
    merged.find? (fun x => x.1.user = u) = winner ls u := by
  have hsorted := hm.sorted hs
  cases hf : merged.find? fun x => x.1.user = u with
  | none =>
      refine (List.find?_eq_none.mpr fun e he => ?_).symm
      have := List.find?_eq_none.mp hf e (hm.perm.symm.subset he)
      simp only [decide_eq_true_eq] at this ⊢
      exact fun ⟨hu, _⟩ => this hu
  | some x =>
      obtain ⟨hx, pre, post, hmerged, hpre⟩ := List.find?_eq_some_iff_append.mp hf
      have hxu : x.1.user = u := by simpa using hx
      have hpre : ∀ y ∈ pre, y.1.user ≠ u := fun y hy => by simpa using hpre y hy
      have hmax : ∀ y ∈ ls.flatten, y.1.user = u → y.1.seq.toNat ≤ x.1.seq.toNat := by
        intro y hy hyu
        have hy' := hm.perm.symm.subset hy
        rw [hmerged] at hy' hsorted
        rcases List.mem_append.mp hy' with hy' | hy'
        · exact absurd hyu (hpre y hy')
        · rcases List.mem_cons.mp hy' with rfl | hy'
          · exact le_rfl
          · have hle := (List.pairwise_cons.mp (List.pairwise_append.mp hsorted).2.1).1 y hy'
            rcases hle.lt_or_eq with hlt | heq
            · rcases Key.lt_iff.mp hlt with hlt | ⟨_, hlt⟩
              · exact absurd (hxu.trans hyu.symm) hlt.ne
              · exact hlt.le
            · rw [heq]
      -- the merge keeps the order of the inputs among the entries with the key of `x`
      have hfilter : merged.filter (fun y => y.1 = x.1) =
          ls.flatten.filter (fun y => y.1 = x.1) := by convert hm.filter_eq hs x.1
      have hfirst : ls.flatten.find? (fun y => y.1 = x.1) = some x := by
        rw [find?_eq_head?_filter, ← hfilter, ← find?_eq_head?_filter]
        refine List.find?_eq_some_iff_append.mpr ⟨by simp, pre, post, hmerged, fun y hy => ?_⟩
        have hne : y.1 ≠ x.1 := fun h => hpre y hy ((congrArg Key.user h).trans hxu)
        simpa using hne
      obtain ⟨_, pre', post', hflat, hpre'⟩ := List.find?_eq_some_iff_append.mp hfirst
      refine (List.find?_eq_some_iff_append.mpr ⟨?_, pre', post', hflat, fun y hy => ?_⟩).symm
      · rw [decide_eq_true_eq]
        exact ⟨hxu, hmax⟩
      have hne : y.1 ≠ x.1 := by simpa using hpre' y hy
      simp only [Bool.not_eq_true', decide_eq_false_iff_not]
      rintro ⟨hyu, hymax⟩
      have h₁ := hmax y (by rw [hflat]; simp [hy]) hyu
      have h₂ := hymax x (by rw [hflat]; simp) hxu
      exact hne (Key.eq_of_user_seq (hyu.trans hxu.symm) (h₁.antisymm h₂))

end spec

/-! ### The output -/

/-- The input is a scan of a table that was written, and yields `es`. -/
def Scans (t : TableScan) (es : List Entry) : Prop :=
  ∃ raw file m, writeTable raw = .ok (some (file, m)) ∧ file.length < 2 ^ 64 ∧
    TableScan.open file = .ok t ∧ es = raw.map Entry.stored

theorem Scans.yields {t : TableScan} {es : List Entry} (h : Scans t es) :
    t.Yields es ∧ es.Pairwise fun a b => a.1 ≤ b.1 := by
  obtain ⟨raw, file, m, hw, hlen, ho, rfl⟩ := h
  obtain ⟨t', ho', hy⟩ := scan_written hw hlen
  cases ho'.symm.trans ho
  exact ⟨hy, List.pairwise_map.mpr (writeTable_some hw).1⟩

/-- **Merging**: over scans that yield sorted entries, the merging scan returns the entries of all inputs
and then `None`.  With each entry comes the index of its input: the entries of one input stand as the
input yields them, and the whole is sorted by key and, for one key, by the index of the input. -/
theorem mergeScan_spec {scans : List TableScan} {ls : List (List Entry)}
    (h : List.Forall₂ (fun t l => t.Yields l ∧ l.Pairwise fun a b => a.1 ≤ b.1) scans ls) :
    ∃ (m : MergeScan) (tagged : List (ℕ × Entry)), MergeScan.new scans = .ok m ∧
      m.Yields (tagged.map Prod.snd) ∧
      (tagged.Pairwise fun x y => x.2.1 < y.2.1 ∨ x.2.1 = y.2.1 ∧ x.1 ≤ y.1) ∧
      (∀ i, (tagged.filter fun x => x.1 = i).map Prod.snd = ls.getD i []) ∧
      (tagged.map Prod.snd).Perm ls.flatten := by
  have hs : Merging.Sorted Prod.fst ls := by
    intro l hl
    obtain ⟨i, hi, rfl⟩ := List.mem_iff_getElem.mp hl
    exact (h.get (h.length_eq ▸ hi) hi).2
  obtain ⟨m, hm, hready⟩ := MergeScan.new_eq (h.imp fun _ _ h => h.1)
  obtain ⟨out, hmerge, hy⟩ := MergeScan.yields_merge hready
  obtain ⟨tagged, rfl, hfilter, hpair⟩ := hmerge.tags hs
  exact ⟨m, tagged, hm, hy, hpair, hfilter, hmerge.perm⟩

omit [Crc32] in
/-- Two scans of one table, whose keys are all equal across the inputs. -/
theorem mergeScan_spec_twoVersions :
    ∃ (t : TableScan) (m : MergeScan) (tagged : List (ℕ × Entry)),
      @MergeScan.new crc32 [t, t] = .ok m ∧ @MergeScan.Yields crc32 m (tagged.map Prod.snd) ∧
      (tagged.map Prod.snd).Perm
        [twoVersions.map Entry.stored, twoVersions.map Entry.stored].flatten := by
  obtain ⟨file, t, -, hy⟩ := scan_written_twoVersions
  have hs : (twoVersions.map Entry.stored).Pairwise fun a b => a.1 ≤ b.1 := by decide
  obtain ⟨m, tagged, hm, hmy, -, -, hperm⟩ :=
    @mergeScan_spec crc32 _ _ (.cons ⟨hy, hs⟩ (.cons ⟨hy, hs⟩ .nil))
  exact ⟨t, m, tagged, hm, hmy, hperm⟩

/-- `out` has the newest version of each user key whose newest version is a `Set`, in key order. -/
structure Survivors (ls : List (List Entry)) (out : List Entry) : Prop where
  ascending : out.Pairwise fun a b => a.1.user < b.1.user
  mem_iff : ∀ e, e ∈ out ↔ winner ls e.1.user = some e ∧ e.2 ≠ .delete

/-- The entries that are written: the newest versions, without the deletions but for one of the
greatest user key. -/
theorem compact_entries {inputs : List TableScan} {ls : List (List Entry)}
    (h : List.Forall₂ Scans inputs ls) :
    ∃ out, compact inputs = writeTable out ∧ (out.Pairwise fun a b => a.1.user < b.1.user) ∧
      ∀ e, e ∈ out ↔ winner ls e.1.user = some e ∧
        (e.2 ≠ .delete ∨ ∀ x ∈ ls.flatten, x.1.user ≤ e.1.user) := by
  have hs : Merging.Sorted Prod.fst ls := by
    intro l hl
    obtain ⟨i, hi, rfl⟩ := List.mem_iff_getElem.mp hl
    exact (h.get (h.length_eq ▸ hi) hi).yields.2
  obtain ⟨merged, hm, hc⟩ := compact_eq (h.imp fun _ _ h => h.yields.1)
  have hsorted := hm.sorted hs
  refine ⟨compacted merged, hc, ?_⟩
  cases merged with
  | nil =>
      refine ⟨List.Pairwise.nil, fun e => iff_of_false List.not_mem_nil ?_⟩
      rw [← find_merge hm hs]
      simp
  | cons x xs =>
      refine ⟨held_users hsorted, ?_⟩
      intro e
      rw [compacted, mem_held hsorted, find_merge hm hs]
      refine and_congr_right fun _ => or_congr_right ?_
      exact forall_congr' fun x => imp_congr_left hm.perm.mem_iff

omit [Crc32] in
/-- The last of ascending entries is the one with the greatest user key. -/
theorem lastKeyOf_eq {out : List Entry} {e : Entry}
    (h : out.Pairwise fun a b => a.1.user < b.1.user) (he : e ∈ out)
    (hmax : ∀ x ∈ out, x.1.user ≤ e.1.user) : lastKeyOf out = e.1 := by
  obtain ⟨l, y, rfl⟩ := (List.eq_nil_or_concat' out).resolve_left (List.ne_nil_of_mem he)
  rcases List.mem_append.mp he with he | he
  · have hlt := (List.pairwise_append.mp h).2.2 e he y (by simp)
    exact absurd (hmax y (by simp)) hlt.not_ge
  · rw [List.mem_singleton.mp he]
    simp [lastKeyOf]

/-- **Compaction**: the output has the newest version of each user key that is not deleted, and
nothing else, exactly if the greatest user key of the inputs is not deleted. -/
theorem compact_iff {inputs : List TableScan} {ls : List (List Entry)}
    {r : Option (Bytes × SSTableMeta)} (h : List.Forall₂ Scans inputs ls)
    (hr : compact inputs = .ok r) :
    (∃ out, Survivors ls out ∧ writeTable out = .ok r ∧ (r = none ↔ out = [])) ↔
      ∀ e, winner ls e.1.user = some e → (∀ x ∈ ls.flatten, x.1.user ≤ e.1.user) →
        e.2 ≠ .delete := by
  obtain ⟨out, hout, hasc, hmem⟩ := compact_entries h
  rw [hr] at hout
  constructor
  · rintro ⟨out', ⟨hasc', hmem'⟩, hw', hnone⟩ e he hmax hd
    have heo : e ∈ out := (hmem e).mpr ⟨he, .inr hmax⟩
    have hsub : ∀ x, winner ls x.1.user = some x → x.1.user ≤ e.1.user :=
      fun x hx => hmax x (List.mem_of_find?_eq_some hx)
    cases r with
    | none => exact absurd (writeTable_none hout.symm) (List.ne_nil_of_mem heo)
    | some r =>
        obtain ⟨file, m⟩ := r
        obtain ⟨_, b, hb, _, hmb⟩ := writeTable_some hout.symm
        obtain ⟨_, b', hb', _, hmb'⟩ := writeTable_some hw'
        -- both lists were written with the same last key
        have hlast : lastKeyOf out = lastKeyOf out' := by
          rw [← hb, ← hb']
          exact congrArg SSTableMeta.lastKey (hmb.symm.trans hmb')
        obtain ⟨y, hy, hyk⟩ := lastKeyOf_mem (c := out') (fun h0 => by simp [h0] at hnone)
        rw [← hlast, lastKeyOf_eq hasc heo fun x hx => hsub x ((hmem x).mp hx).1] at hyk
        obtain ⟨hwy, hlive⟩ := (hmem' y).mp hy
        rw [hyk] at hwy
        cases he.symm.trans hwy
        exact hlive hd
  · intro hgreatest
    refine ⟨out, ⟨hasc, ?_⟩, hout.symm, ?_⟩
    · intro e
      rw [hmem]
      refine and_congr_right fun he => or_iff_left_of_imp fun hmax => hgreatest e he hmax
    · constructor
      · rintro rfl
        exact writeTable_none hout.symm
      · rintro rfl
        cases hout
        rfl

end code

/-- A table of these entries, compacted on its own: the scan and the result. -/
def compactOne (es : List Entry) : Option (TableScan × Option (Bytes × SSTableMeta)) :=
  match @writeTable crc32 es with
  | .ok (some (file, _)) =>
    if file.length < 2 ^ 64 then
      match TableScan.open file with
      | .ok t =>
        match @compact crc32 [t] with
        | .ok r => some (t, r)
        | .error _ => none
      | .error _ => none
    else none
  | _ => none

theorem scans_compactOne {es : List Entry} {t : TableScan} {r : Option (Bytes × SSTableMeta)}
    (h : compactOne es = some (t, r)) :
    @Scans crc32 t (es.map Entry.stored) ∧ @compact crc32 [t] = .ok r := by
  unfold compactOne at h
  split at h
  case h_1 file m hw =>
    split_ifs at h with hlen
    split at h
    case h_1 t' ho =>
      split at h
      case h_1 r' hr =>
        cases h
        exact ⟨⟨es, file, m, hw, hlen, ho, rfl⟩, hr⟩
      case h_2 => cases h
    case h_2 => cases h
  case h_2 => cases h

/-- A deleted user key in front of one that is not deleted. -/
def deletedFirst : List Entry :=
  [(⟨.ascii [0x6a], 2⟩, .delete), (⟨.ascii [0x6a], 1⟩, .set (.ascii [0x76])),
    (⟨.ascii [0x6b], 1⟩, .set (.ascii [0x76]))]

theorem compact_iff_deletedFirst :
    ∃ t r, @Scans crc32 t (deletedFirst.map Entry.stored) ∧ @compact crc32 [t] = .ok r ∧
      ((∃ out, Survivors [deletedFirst.map Entry.stored] out ∧ @writeTable crc32 out = .ok r ∧
          (r = none ↔ out = [])) ↔
        ∀ e, winner [deletedFirst.map Entry.stored] e.1.user = some e →
          (∀ x ∈ [deletedFirst.map Entry.stored].flatten, x.1.user ≤ e.1.user) →
          e.2 ≠ .delete) := by
  have h : (compactOne deletedFirst).isSome := by decide +kernel
  obtain ⟨⟨t, r⟩, h⟩ := Option.isSome_iff_exists.mp h
  obtain ⟨hs, hr⟩ := scans_compactOne h
  exact ⟨t, r, hs, hr, @compact_iff crc32 _ _ _ (.cons hs .nil) hr⟩

/-- A table with a single deletion. -/
def deletedOnly : List Entry := [(⟨.ascii [0x6b], 1⟩, .delete)]

def compactDeletedOnly : Option (TableScan × Bytes × SSTableMeta) := do
  let x ← compactOne deletedOnly
  let y ← x.2
  if y.2.footer.entries = 1 then return (x.1, y) else none

/-- The deletion of the greatest user key is written although no user key survives. -/
theorem compact_deletedOnly :
    ∃ t file m, @Scans crc32 t deletedOnly ∧ @compact crc32 [t] = .ok (some (file, m)) ∧
      m.footer.entries = 1 ∧ Survivors [deletedOnly] [] ∧
      ¬ ∃ out, Survivors [deletedOnly] out ∧ @writeTable crc32 out = .ok (some (file, m)) := by
  have h : compactDeletedOnly.isSome := by decide +kernel
  obtain ⟨⟨t, file, m⟩, h⟩ := Option.isSome_iff_exists.mp h
  unfold compactDeletedOnly at h
  simp only [bind, Option.bind_eq_some_iff] at h
  obtain ⟨⟨_, _⟩, hc, ⟨_, _⟩, rfl, he⟩ := h
  split_ifs at he with hone
  cases he
  have hnone : ∀ e, ¬ (winner [deletedOnly] e.1.user = some e ∧ e.2 ≠ .delete) := by
    rintro e ⟨he, hlive⟩
    have hmem : e ∈ deletedOnly := List.mem_of_find?_eq_some he
    rw [List.mem_singleton.mp hmem] at hlive
    exact hlive rfl
  obtain ⟨hs, hr⟩ := scans_compactOne hc
  refine ⟨_, _, _, hs, hr, hone, ⟨List.Pairwise.nil, ?_⟩, ?_⟩
  · intro e
    exact iff_of_false List.not_mem_nil (hnone e)
  · rintro ⟨out, ⟨_, hmem⟩, hw⟩
    have hnil : out = [] :=
      List.eq_nil_iff_forall_not_mem.mpr fun e he => hnone e ((hmem e).mp he)
    rw [hnil] at hw
    cases hw

end LowDB
