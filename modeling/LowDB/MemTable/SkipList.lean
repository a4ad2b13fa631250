import LowDB.Lib.Chains
import LowDB.MemTable

/-! # The skip list

`memtable/src/list.rs`.  A node has a tower of pointers, one for each level below its height; the
nodes of a level form a chain from the head, and a search goes down the levels from the last node
before the key to the last node before the key.

`Levels s L` says that the chain of each level `l` is `L l`, in ascending key order, and that a level
has only nodes of the level below.  An insertion that runs alone links the node into each level at
the place its search has found (`insert_eq`), so the list answers like the sorted list of its entries
(`skipList_refines`), whatever the heights. -/

namespace LowDB

open Chains

/-! ### Nodes and pointers -/

def MAX_HEIGHT : ℕ := 16

/-- A `*mut Node`: null, or the address of a node. -/
abbrev Ptr := Option ℕ

structure Node where
  key : Key
  value : Value
  tower : List Ptr
deriving DecidableEq

/-- What `std::mem::size_of` gives for a node and for a pointer. -/
class Layout where
  node : ℕ
  pointer : ℕ

namespace Node

/-- `Node::alloc`. -/
def alloc (key : Key) (value : Value) (height : ℕ) : Node :=
  ⟨key, value, List.replicate height none⟩

def heapSize [Layout] (n : Node) : ℕ :=
  Layout.node + n.key.heapSize + n.value.heapSize + n.tower.length * Layout.pointer

def entry (n : Node) : Entry := (n.key, n.value)

/-- What a node keeps from its allocation on. -/
def data (n : Node) : Entry × ℕ := (n.entry, n.tower.length)

end Node

/-- `nodes` is the memory of the nodes, by address; a node that was freed is never reached again, and
its address not used again. -/
structure SkipList where
  nodes : List Node
  head : List Ptr
  maxHeight : ℕ
  len : ℕ
  memUsage : ℕ
deriving DecidableEq

namespace SkipList

def new : SkipList := ⟨[], List.replicate MAX_HEIGHT none, 1, 0, 0⟩

/-! ### Slots -/

/-- `self.slot(pred, level).load(…)`; none where the tower is indexed out of bounds. -/
def load (s : SkipList) (pred : Ptr) (level : ℕ) : Option Ptr :=
  match pred with
  | some p => s.nodes[p]?.bind fun node => node.tower[level]?
  | none => s.head[level]?

/-- `self.slot(pred, level).store(p, …)`. -/
def store (s : SkipList) (pred : Ptr) (level : ℕ) (p : Ptr) : SkipList :=
  match pred with
  | some q =>
    { s with nodes := s.nodes.modify q fun node => { node with tower := node.tower.set level p } }
  | none => { s with head := s.head.set level p }

/-- `self.slot(pred, level).compare_exchange(expected, new, …).is_ok()`. -/
def compareExchange (s : SkipList) (pred : Ptr) (level : ℕ) (expected new : Ptr) :
    Option (Bool × SkipList) := do
  let p ← s.load pred level
  return if p = expected then (true, s.store pred level new) else (false, s)

/-- The node behind `p` in the chain of a level. -/
def next (s : SkipList) (level : ℕ) (p : Ptr) : Ptr := (s.load p level).join

def keyAt (s : SkipList) (p : ℕ) : Key := (s.nodes[p]?.map Node.key).getD ⟨.empty, 0⟩

def entryOf (s : SkipList) (p : ℕ) : Entry :=
  (s.nodes[p]?.map Node.entry).getD (⟨.empty, 0⟩, .delete)

def heapSizeOf [Layout] (s : SkipList) (p : ℕ) : ℕ := (s.nodes[p]?.map Node.heapSize).getD 0

def heightAt (s : SkipList) (p : ℕ) : ℕ := (s.nodes[p]?.map fun node => node.tower.length).getD 0

variable {s : SkipList} {pred p q : Ptr} {a b l level : ℕ}

theorem fst_entryOf (s : SkipList) (a : ℕ) : (s.entryOf a).1 = s.keyAt a := by
  unfold entryOf keyAt
  cases s.nodes[a]? <;> rfl

theorem load_eq_next (h : (s.load p l).isSome) : s.load p l = some (s.next l p) := by
  obtain ⟨q, hq⟩ := Option.isSome_iff_exists.mp h
  rw [next, hq]
  rfl

theorem isSome_load_none (h : s.head.length = MAX_HEIGHT) (hl : l < MAX_HEIGHT) :
    (s.load none l).isSome := by
  simp [load, h, hl]

theorem isSome_load_some (h : l < s.heightAt a) : (s.load (some a) l).isSome := by
  unfold heightAt at h
  unfold load
  cases hn : s.nodes[a]? with
  | none => simp [hn] at h
  | some node => simpa [hn] using h

@[simp] theorem length_head_store (s : SkipList) (pred : Ptr) (level : ℕ) (p : Ptr) :
    (s.store pred level p).head.length = s.head.length := by
  cases pred <;> simp [store]

theorem isSome_set (ps : List Ptr) (i : ℕ) (p : Ptr) (l : ℕ) :
    (ps.set i p)[l]?.isSome = ps[l]?.isSome := Bool.eq_iff_iff.mpr (by simp)

theorem isSome_load_store (s : SkipList) (pred : Ptr) (level : ℕ) (p q : Ptr) (l : ℕ) :
    ((s.store pred level p).load q l).isSome = (s.load q l).isSome := by
  cases q with
  | none => cases pred <;> simp [load, store, isSome_set]
  | some a =>
      cases pred with
      | none => rfl
      | some b =>
          simp only [load, store, List.getElem?_modify]
          by_cases h : b = a
          · cases s.nodes[a]? <;> simp [h, isSome_set]
          · cases s.nodes[a]? <;> simp [h]

/-- A store changes nothing of a node but its tower. -/
theorem map_nodes_store {β : Type} {f : Node → β}
    (hf : ∀ (node : Node) (i : ℕ) (p : Ptr), f { node with tower := node.tower.set i p } = f node)
    (s : SkipList) (pred : Ptr) (level : ℕ) (p : Ptr) (a : ℕ) :
    (s.store pred level p).nodes[a]?.map f = s.nodes[a]?.map f := by
  cases pred with
  | none => rfl
  | some q =>
      simp only [store, List.getElem?_modify]
      by_cases h : q = a
      · cases s.nodes[a]? <;> simp [h, hf]
      · simp [h]

@[simp] theorem keyAt_store (s : SkipList) (pred : Ptr) (level : ℕ) (p : Ptr) :
    (s.store pred level p).keyAt = s.keyAt := by
  funext a
  rw [keyAt, map_nodes_store (fun _ _ _ => rfl)]
  rfl

@[simp] theorem heightAt_store (s : SkipList) (pred : Ptr) (level : ℕ) (p : Ptr) :
    (s.store pred level p).heightAt = s.heightAt := by
  funext a
  rw [heightAt, map_nodes_store (fun _ _ _ => List.length_set)]
  rfl

/-- A store changes one successor at one level. -/
theorem next_store (h : (s.load pred level).isSome) (p : Ptr) :
    (s.store pred level p).next l = if l = level then Function.update (s.next l) pred p
      else s.next l := by
  funext r
  by_cases hl : l = level
  · subst hl
    rw [if_pos rfl]
    by_cases hr : r = pred
    · subst hr
      rw [Function.update_self]
      cases r with
      | none =>
          have hlt : l < s.head.length := by simpa [load] using h
          simp [next, load, store, hlt]
      | some q =>
          cases hn : s.nodes[q]? with
          | none => simp [load, hn] at h
          | some node =>
              have hlt : l < node.tower.length := by simpa [load, hn] using h
              simp [next, load, store, hn, hlt]
    · rw [Function.update_of_ne hr]
      cases r with
      | none =>
          cases pred with
          | none => exact absurd rfl hr
          | some q => rfl
      | some a =>
          cases pred with
          | none => rfl
          | some q =>
              have hne : q ≠ a := fun he => hr (by rw [he])
              simp [next, load, store, hne]
  · rw [if_neg hl]
    cases pred with
    | none =>
        cases r with
        | none => simp [next, load, store, List.getElem?_set_ne (Ne.symm hl)]
        | some a => rfl
    | some q =>
        cases r with
        | none => rfl
        | some a =>
            simp only [next, load, store, List.getElem?_modify]
            by_cases hqa : q = a
            · cases hn : s.nodes[a]? with
              | none => simp
              | some node => simp [hqa, List.getElem?_set_ne (Ne.symm hl)]
            · cases hn : s.nodes[a]? <;> simp [hqa]

/-! ### Searches

`cmp_key` compares with the key of the bound, so `node.key < k` stands for its `Less`. -/

/-- The inner loop of a search, at most `n` rounds: from `curr` on to the first node that is not
below `k`, and the last node before it. -/
def walk (s : SkipList) (k : Key) (level : ℕ) : ℕ → Ptr → Ptr → Option (Ptr × Ptr)
  | 0, _, _ => none
  | _ + 1, pred, none => some (pred, none)
  | n + 1, pred, some c =>
    if s.keyAt c < k then (s.load (some c) level).bind (s.walk k level n (some c))
    else some (pred, some c)

/-- The arrays `preds` and `succs`, of length `MAX_HEIGHT`. -/
structure Arrays where
  preds : ℕ → Ptr
  succs : ℕ → Ptr

namespace Arrays

def empty : Arrays := ⟨fun _ => none, fun _ => none⟩

/-- `preds[level] = pred; succs[level] = curr`. -/
def set (A : Arrays) (level : ℕ) (pred curr : Ptr) : Arrays :=
  ⟨Function.update A.preds level pred, Function.update A.succs level curr⟩

end Arrays

/-- The loop of `find` over the levels below `n`, from the highest. -/
def findFrom (s : SkipList) (k : Key) : ℕ → Ptr → Arrays → Option Arrays
  | 0, _, A => some A
  | level + 1, pred, A => do
    let curr ← s.load pred level
    let (pred, curr) ← s.walk k level (s.nodes.length + 1) pred curr
    s.findFrom k level pred (A.set level pred curr)

/-- `cmp_key(&n.key, key, seq) == Equal` for the node behind `p`. -/
def hasKey (s : SkipList) (k : Key) (p : Ptr) : Bool := p.any fun c => s.keyAt c = k

def find (s : SkipList) (k : Key) (A : Arrays) : Option (Bool × Arrays) := do
  let A ← s.findFrom k s.maxHeight none A
  return (s.hasKey k (A.succs 0), A)

/-- The loop of `seek` over the levels below `n`. -/
def seekFrom (s : SkipList) (k : Key) : ℕ → Ptr → Ptr → Option Ptr
  | 0, _, curr => some curr
  | level + 1, pred, _ => do
    let curr ← s.load pred level
    let (pred, curr) ← s.walk k level (s.nodes.length + 1) pred curr
    s.seekFrom k level pred curr

def seek (s : SkipList) (k : Key) : Option Ptr := s.seekFrom k s.maxHeight none none

/-- `get_entry_at`; the outer `Option` is that of the search. -/
def getEntryAt (s : SkipList) (key : Str) (snapshot : UInt64) : Option (Option Entry) := do
  match ← s.seek ⟨key, snapshot⟩ with
  | none => return none
  | some c =>
    let node ← s.nodes[c]?
    return if node.key.user = key then some node.entry else none

/-- The nodes `Iter::next` passes from `curr` to the end, at most `n`. -/
def iterNodes (s : SkipList) : ℕ → Ptr → Option (List Node)
  | _, none => some []
  | 0, some _ => none
  | n + 1, some c => do
    let node ← s.nodes[c]?
    let curr ← s.load (some c) 0
    let nodes ← s.iterNodes n curr
    return node :: nodes

/-- All nodes, as `Iter` and `Drop` find them. -/
def level0 (s : SkipList) : Option (List Node) :=
  (s.load none 0).bind (s.iterNodes s.nodes.length)

def iter (s : SkipList) : Option (List Entry) := s.level0.map (·.map Node.entry)

def iterFrom (s : SkipList) (key : Str) (seq : UInt64) : Option (List Entry) := do
  let nodes ← s.iterNodes s.nodes.length (← s.seek ⟨key, seq⟩)
  return nodes.map Node.entry

/-! ### Insertion -/

/-- The loop that raises `max_height`; a weak exchange that fails is repeated. -/
def raise (s : SkipList) (height : ℕ) : SkipList :=
  if s.maxHeight < height then { s with maxHeight := height } else s

/-- `(*node).tower[level].store(p, …)`. -/
def setTower (s : SkipList) (node level : ℕ) (p : Ptr) : Option SkipList :=
  (s.load (some node) level).map fun _ => s.store (some node) level p

/-- The loop that links the node at level 0, at most `n` rounds: false for a duplicate. -/
def linkBottom (s : SkipList) (k : Key) (node : ℕ) : ℕ → Arrays → Option (Bool × SkipList × Arrays)
  | 0, _ => none
  | n + 1, A => do
    let (found, A) ← s.find k A
    if found then return (false, s, A)
    let s ← s.setTower node 0 (A.succs 0)
    let (swapped, s) ← s.compareExchange (A.preds 0) 0 (A.succs 0) (some node)
    if swapped then return (true, s, A)
    s.linkBottom k node n A

/-- The loop that links the node at a level above, at most `n` rounds. -/
def linkUpper (s : SkipList) (k : Key) (node level : ℕ) : ℕ → Arrays → Option (SkipList × Arrays)
  | 0, _ => none
  | n + 1, A => do
    let s ← s.setTower node level (A.succs level)
    let (swapped, s) ← s.compareExchange (A.preds level) level (A.succs level) (some node)
    if swapped then return (s, A)
    let (_, A) ← s.find k A
    s.linkUpper k node level n A

/-- The loop over `n` levels from `level` on. -/
def linkLevels (s : SkipList) (k : Key) (node rounds : ℕ) : ℕ → ℕ → Arrays → Option SkipList
  | 0, _, _ => some s
  | n + 1, level, A => do
    let (s, A) ← s.linkUpper k node level rounds A
    s.linkLevels k node rounds n (level + 1) A

/-- `self.len.fetch_add(1); self.mem_usage.fetch_add(size)`. -/
def count (s : SkipList) (size : ℕ) : SkipList :=
  { s with len := s.len + 1, memUsage := s.memUsage + size }

/-- `Node::alloc`, at an address not used before. -/
def alloc (s : SkipList) (key : Key) (value : Value) (height : ℕ) : SkipList :=
  { s with nodes := s.nodes ++ [Node.alloc key value height] }

/-- `insert` of a node whose height has been drawn; every retry loop takes at most `rounds` rounds. -/
def insert [Layout] (s : SkipList) (rounds height : ℕ) (key : Key) (value : Value) :
    Option (Bool × SkipList) := do
  let s := s.raise height
  let node := s.nodes.length
  let (inserted, s, A) ← (s.alloc key value height).linkBottom key node rounds .empty
  if inserted then
    let s := s.count (s.heapSizeOf node)
    let s ← s.linkLevels key node rounds (height - 1) 1 A
    return (true, s)
  else return (false, s)

/-! ### The chains of the levels -/

/-- The chain of the level `l` is `L l`: in ascending key order, of nodes of the level below that are
taller than `l`. -/
structure Levels (s : SkipList) (L : ℕ → List ℕ) : Prop where
  head : s.head.length = MAX_HEIGHT
  chain : ∀ l < MAX_HEIGHT, Chain (s.next l) none (L l)
  ascending : ∀ l, (L l).Pairwise fun a b => s.keyAt a < s.keyAt b
  sub : ∀ l, L (l + 1) ⊆ L l
  tall : ∀ l, ∀ a ∈ L l, l < s.heightAt a

namespace Levels

variable {L : ℕ → List ℕ}

theorem new : Levels .new fun _ => [] where
  head := rfl
  chain l hl := by
    show SkipList.next _ l none = none
    simp [SkipList.next, load, SkipList.new, hl]
  ascending _ := List.Pairwise.nil
  sub _ := List.Subset.refl _
  tall _ _ ha := absurd ha List.not_mem_nil

theorem lt_length (h : Levels s L) (ha : a ∈ L l) : a < s.nodes.length := by
  have ht := h.tall l a ha
  by_contra hge
  simp [heightAt, List.getElem?_eq_none (not_lt.mp hge)] at ht

/-- The slots a search reads are within their towers. -/
theorem isSome_load (h : Levels s L) (hl : l < MAX_HEIGHT) (hp : ∀ b ∈ p, b ∈ L l) :
    (s.load p l).isSome := by
  cases p with
  | none => exact isSome_load_none h.head hl
  | some b => exact isSome_load_some (h.tall l b (hp b rfl))

theorem load_eq (h : Levels s L) (hl : l < MAX_HEIGHT) (hp : ∀ b ∈ p, b ∈ L l) :
    s.load p l = some (s.next l p) := load_eq_next (h.isSome_load hl hp)

theorem length_le (h : Levels s L) (l : ℕ) : (L l).length ≤ s.nodes.length := by
  have hnd : (L l).Nodup := nodup_of_ascending (h.ascending l)
  have hsub : L l ⊆ List.range s.nodes.length := fun a ha => List.mem_range.mpr (h.lt_length ha)
  have hle := (List.subperm_of_subset hnd hsub).length_le
  rwa [List.length_range] at hle

/-- Each level is a subsequence of the level below. -/
theorem sublist (h : Levels s L) (l : ℕ) : (L (l + 1)).Sublist (L l) :=
  sublist_of_subset (h.ascending (l + 1)) (h.ascending l) (h.sub l)

theorem subset_of_le (h : Levels s L) {l' : ℕ} (hle : l ≤ l') : L l' ⊆ L l := by
  induction hle with
  | refl => exact List.Subset.refl _
  | step _ ih => exact fun a ha => ih (h.sub _ ha)

theorem of_eq (h : Levels s L) {s' : SkipList} (hn : s'.nodes = s.nodes) (hh : s'.head = s.head) :
    Levels s' L := by
  cases s
  cases s'
  cases hn
  cases hh
  exact ⟨h.head, h.chain, h.ascending, h.sub, h.tall⟩

/-- A new node is in no chain. -/
theorem alloc (h : Levels s L) (key : Key) (value : Value) (height : ℕ) :
    Levels (s.alloc key value height) L := by
  have hget : ∀ l, ∀ a ∈ L l, (s.alloc key value height).nodes[a]? = s.nodes[a]? :=
    fun l a ha => List.getElem?_append_left (h.lt_length ha)
  have hkey : ∀ l, ∀ a ∈ L l, (s.alloc key value height).keyAt a = s.keyAt a := by
    intro l a ha
    simp only [keyAt, hget l a ha]
  refine ⟨h.head, fun l hl => (h.chain l hl).congr rfl fun b hb => ?_, fun l => ?_, h.sub,
    fun l a ha => ?_⟩
  · simp only [SkipList.next, load, hget l b hb]
  · refine (h.ascending l).imp_of_mem fun {a b} ha hb hab => ?_
    rwa [hkey l a ha, hkey l b hb]
  · have ht := h.tall l a ha
    simpa only [heightAt, hget l a ha] using ht

/-- Storing to the tower of a node that is not in the level. -/
theorem store_own (h : Levels s L) (ha : a ∉ L level) (hl : level < s.heightAt a) (p : Ptr) :
    Levels (s.store (some a) level p) L := by
  have hload : (s.load (some a) level).isSome := isSome_load_some hl
  refine ⟨by simpa using h.head, fun l hlt => ?_, by simpa using h.ascending, h.sub,
    by simpa using h.tall⟩
  rw [next_store hload]
  split_ifs with he
  · subst he
    apply (h.chain l hlt).congr (by simp)
    intro b hb
    have hne : b ≠ a := fun he => ha (he ▸ hb)
    simp [hne]
  · exact h.chain l hlt

/-- Linking a node in between its neighbours. -/
theorem link (h : Levels s L) (hl : level < MAX_HEIGHT)
    (hpred : Below s.keyAt (L level) (s.keyAt a) pred)
    (hsucc : ∀ b ∈ s.next level pred, s.keyAt a < s.keyAt b)
    (hself : s.next level (some a) = s.next level pred) (htall : level < s.heightAt a)
    (hsub : ∀ l, level = l + 1 → a ∈ L l) :
    ∃ xs, Levels (s.store pred level (some a)) (Function.update L level xs) ∧
      xs.Perm (a :: L level) := by
  have hload : (s.load pred level).isSome := h.isSome_load hl fun b hb => (hpred b hb).1
  obtain ⟨xs, hchain, hasc, hperm⟩ := (h.chain level hl).link (h.ascending level) hpred hsucc
  have hmem : ∀ b, b ∈ xs ↔ b = a ∨ b ∈ L level := fun b => by
    rw [hperm.mem_iff, List.mem_cons]
  refine ⟨xs, ⟨by simpa using h.head, fun l hlt => ?_, fun l => ?_, fun l => ?_, fun l b hb => ?_⟩,
    hperm⟩
  · rw [next_store hload]
    by_cases he : l = level
    · subst he
      have heq : Function.update (s.next l) (some a) (s.next l pred) = s.next l := by
        rw [← hself]
        exact Function.update_eq_self ..
      rw [if_pos rfl, Function.update_self]
      rwa [Chains.splice, heq] at hchain
    · rw [if_neg he, Function.update_of_ne he]
      exact h.chain l hlt
  · rw [keyAt_store]
    by_cases he : l = level
    · subst he
      rwa [Function.update_self]
    · rw [Function.update_of_ne he]
      exact h.ascending l
  · intro b hb
    by_cases he : l + 1 = level
    · subst he
      rw [Function.update_self] at hb
      rw [Function.update_of_ne (by omega)]
      rcases (hmem b).mp hb with rfl | hb
      · exact hsub l rfl
      · exact h.sub l hb
    · rw [Function.update_of_ne he] at hb
      by_cases he' : l = level
      · subst he'
        rw [Function.update_self]
        exact (hmem b).mpr (.inr (h.sub l hb))
      · rw [Function.update_of_ne he']
        exact h.sub l hb
  · rw [heightAt_store]
    by_cases he : l = level
    · subst he
      rw [Function.update_self] at hb
      rcases (hmem b).mp hb with rfl | hb
      · exact htall
      · exact h.tall l b hb
    · rw [Function.update_of_ne he] at hb
      exact h.tall l b hb

end Levels

/-! ### What a search finds -/

/-- `p` is below `k` and `q` is not, and both are in the level or null. -/
structure Window (s : SkipList) (xs : List ℕ) (k : Key) (p q : Ptr) : Prop where
  below : Below s.keyAt xs k p
  notBelow : NotBelow s.keyAt xs k q

theorem Window.congr {s' : SkipList} {xs : List ℕ} {k : Key} (h : Window s xs k p q)
    (hk : s'.keyAt = s.keyAt) : Window s' xs k p q :=
  ⟨hk.symm ▸ h.below, hk.symm ▸ h.notBelow⟩

section search

variable {L : ℕ → List ℕ} {k : Key} {n : ℕ} {xs : List ℕ} {A : Arrays}

/-- The inner loop stops between two neighbours of the level. -/
theorem walk_eq (h : Levels s L) (hl : l < MAX_HEIGHT) (hc : Chain (s.next l) p xs)
    (hxs : xs ⊆ L l) (hp : Below s.keyAt (L l) k p) (hn : xs.length < n) :
    ∃ q, s.walk k l n p (s.next l p) = some (q, s.next l q) ∧
      Window s (L l) k q (s.next l q) := by
  induction xs generalizing p n with
  | nil =>
      cases n with
      | zero => cases hn
      | succ n =>
          have hnone : s.next l p = none := hc
          refine ⟨p, by rw [hnone]; rfl, hp, ?_⟩
          intro b hb
          rw [hnone] at hb
          cases hb
  | cons c cs ih =>
      cases n with
      | zero => cases hn
      | succ n =>
          have hcl : c ∈ L l := hxs List.mem_cons_self
          have hmem : ∀ b ∈ some c, b ∈ L l := fun b hb => by
            cases hb
            exact hcl
          rw [hc.1, walk]
          by_cases hk : s.keyAt c < k
          · rw [if_pos hk, h.load_eq hl hmem, Option.bind_some]
            refine ih hc.2 (fun x hx => hxs (List.mem_cons_of_mem c hx)) (fun b hb => ?_)
              (Nat.lt_of_succ_lt_succ hn)
            cases hb
            exact ⟨hcl, hk⟩
          · rw [if_neg hk]
            refine ⟨p, by rw [hc.1], hp, ?_⟩
            intro b hb
            rw [hc.1] at hb
            cases hb
            exact ⟨hcl, not_lt.mp hk⟩

/-- One level of a search. -/
theorem walk_level (h : Levels s L) (hl : l < MAX_HEIGHT) (hp : Below s.keyAt (L l) k p) :
    ∃ q, s.load p l = some (s.next l p) ∧
      s.walk k l (s.nodes.length + 1) p (s.next l p) = some (q, s.next l q) ∧
      Window s (L l) k q (s.next l q) := by
  have hmem : ∀ b ∈ p, b ∈ L l := fun b hb => (hp b hb).1
  obtain ⟨ys, hys, hc⟩ := (h.chain l hl).exists_suffix hmem
  have hlen : ys.length ≤ s.nodes.length := hys.length_le.trans (h.length_le l)
  obtain ⟨q, hq⟩ := walk_eq h hl hc hys.subset hp (Nat.lt_succ_of_le hlen)
  exact ⟨q, h.load_eq hl hmem, hq⟩

/-- A search finds a window at every level it goes through, and leaves the other places of the
arrays as they are. -/
theorem findFrom_eq (h : Levels s L) (hn : n ≤ MAX_HEIGHT)
    (hp : ∀ l < n, Below s.keyAt (L l) k p) (A : Arrays) :
    ∃ A', s.findFrom k n p A = some A' ∧
      (∀ l < n, A'.succs l = s.next l (A'.preds l) ∧ Window s (L l) k (A'.preds l) (A'.succs l)) ∧
      ∀ l, n ≤ l → A'.preds l = A.preds l ∧ A'.succs l = A.succs l := by
  induction n generalizing p A with
  | zero => exact ⟨A, rfl, fun _ hl => absurd hl (Nat.not_lt_zero _), fun _ _ => ⟨rfl, rfl⟩⟩
  | succ n ih =>
      obtain ⟨q, hload, hwalk, hw⟩ := walk_level h hn (hp n n.lt_succ_self)
      have hq : ∀ l < n, Below s.keyAt (L l) k q := fun l hl =>
        hw.below.mono (h.subset_of_le hl.le)
      obtain ⟨A', hA, hin, hout⟩ := ih (Nat.le_of_succ_le hn) hq (A.set n q (s.next n q))
      refine ⟨A', ?_, ?_, ?_⟩
      · rw [findFrom, hload]
        show (s.walk k n (s.nodes.length + 1) p (s.next n p) >>= _) = _
        rw [hwalk]
        exact hA
      · intro l hl
        rcases Nat.lt_succ_iff_lt_or_eq.mp hl with hl | rfl
        · exact hin l hl
        · obtain ⟨hp', hs'⟩ := hout l le_rfl
          rw [hp', hs']
          simpa [Arrays.set] using hw
      · intro l hl
        obtain ⟨hp', hs'⟩ := hout l (by omega)
        have hne : l ≠ n := by omega
        rw [hp', hs']
        simp [Arrays.set, hne]

/-- A search that starts at the head answers whether the level 0 has the key. -/
theorem find_eq (h : Levels s L) (h0 : 0 < s.maxHeight) (hmax : s.maxHeight ≤ MAX_HEIGHT)
    (k : Key) (A : Arrays) :
    ∃ A', s.find k A = some (decide (∃ b ∈ L 0, s.keyAt b = k), A') ∧
      ∀ l < s.maxHeight,
        A'.succs l = s.next l (A'.preds l) ∧ Window s (L l) k (A'.preds l) (A'.succs l) := by
  obtain ⟨A', hA, hin, -⟩ := findFrom_eq (k := k) (p := none) h hmax (fun _ _ _ hb => nomatch hb) A
  refine ⟨A', ?_, hin⟩
  obtain ⟨hs, hw⟩ := hin 0 h0
  have hkey := (h.chain 0 (by decide)).exists_key_iff (h.ascending 0) hw.below
    fun b hb => (hw.notBelow b (hs ▸ hb)).2
  have hhas : s.hasKey k (A'.succs 0) = decide (∃ b ∈ L 0, s.keyAt b = k) := by
    rw [Bool.eq_iff_iff, decide_eq_true_iff, ← hkey, ← hs]
    unfold hasKey
    cases A'.succs 0 <;> simp
  rw [find, hA, ← hhas]
  rfl

theorem seekFrom_eq_findFrom (s : SkipList) (k : Key) (n : ℕ) (p q : Ptr) (A : Arrays) :
    s.seekFrom k (n + 1) p q = (s.findFrom k (n + 1) p A).map fun A => A.succs 0 := by
  induction n generalizing p q A with
  | zero =>
      simp only [seekFrom, findFrom]
      cases s.load p 0 with
      | none => rfl
      | some c =>
          show (s.walk k 0 _ p c >>= _) = Option.map _ (s.walk k 0 _ p c >>= _)
          cases s.walk k 0 (s.nodes.length + 1) p c <;> simp [Arrays.set]
  | succ n ih =>
      rw [seekFrom, findFrom]
      cases s.load p (n + 1) with
      | none => rfl
      | some c =>
          show (s.walk k (n + 1) _ p c >>= _) = Option.map _ (s.walk k (n + 1) _ p c >>= _)
          cases s.walk k (n + 1) (s.nodes.length + 1) p c with
          | none => rfl
          | some r => exact ih r.1 r.2 _

/-- `seek` finds the node where the level 0 is cut at `k`. -/
theorem seek_eq (h : Levels s L) (h0 : 0 < s.maxHeight) (hmax : s.maxHeight ≤ MAX_HEIGHT)
    (k : Key) :
    ∃ p pre post, s.seek k = some (s.next 0 p) ∧ L 0 = pre ++ post ∧ Chain (s.next 0) p post ∧
      (∀ b ∈ pre, s.keyAt b < k) ∧ ∀ b ∈ post, k ≤ s.keyAt b := by
  obtain ⟨A, hA, hin, -⟩ := findFrom_eq (k := k) (p := none) h hmax (fun _ _ _ hb => nomatch hb)
    .empty
  obtain ⟨hs, hw⟩ := hin 0 h0
  obtain ⟨pre, post, hL, -, hc, hpre, hpost⟩ := (h.chain 0 (by decide)).cut (h.ascending 0) hw.below
    fun b hb => (hw.notBelow b (hs ▸ hb)).2
  refine ⟨_, pre, post, ?_, hL, hc, hpre, hpost⟩
  obtain ⟨m, hm⟩ : ∃ m, s.maxHeight = m + 1 := Nat.exists_eq_succ_of_ne_zero h0.ne'
  rw [seek, hm, seekFrom_eq_findFrom s k m none none .empty, ← hm, hA, Option.map_some, hs]

/-- An iterator passes the nodes of the chain. -/
theorem iterNodes_eq (h : Levels s L) (hc : Chain (s.next 0) p xs) (hxs : xs ⊆ L 0)
    (hn : xs.length ≤ n) :
    ∃ nodes, s.iterNodes n (s.next 0 p) = some nodes ∧
      (xs.map fun a => s.nodes[a]?) = nodes.map some := by
  induction xs generalizing p n with
  | nil =>
      have hnone : s.next 0 p = none := hc
      refine ⟨[], ?_, rfl⟩
      rw [hnone]
      cases n <;> rfl
  | cons c cs ih =>
      cases n with
      | zero => cases hn
      | succ n =>
          have hcl : c ∈ L 0 := hxs List.mem_cons_self
          obtain ⟨node, hnode⟩ : ∃ node, s.nodes[c]? = some node :=
            Option.isSome_iff_exists.mp (by simpa using h.lt_length hcl)
          have hload : s.load (some c) 0 = some (s.next 0 (some c)) := by
            apply h.load_eq (by decide)
            intro b hb
            cases hb
            exact hcl
          obtain ⟨nodes, hit, hmap⟩ := ih hc.2 (fun x hx => hxs (List.mem_cons_of_mem c hx))
            (Nat.le_of_succ_le_succ hn)
          refine ⟨node :: nodes, ?_, ?_⟩
          · simp only [hc.1, iterNodes, hnode, hload, hit, Option.bind_eq_bind, Option.bind_some,
              Option.pure_def]
          · rw [List.map_cons, hnode, hmap, List.map_cons]

end search

/-! ### What an insertion does -/

/-- Nothing but towers and `head` has changed. -/
structure Kept (s s' : SkipList) : Prop where
  nodes : ∀ a : ℕ, s'.nodes[a]?.map Node.data = s.nodes[a]?.map Node.data
  maxHeight : s'.maxHeight = s.maxHeight
  len : s'.len = s.len
  memUsage : s'.memUsage = s.memUsage

namespace Kept

variable {s' s'' : SkipList}

theorem trans (h : Kept s s') (h' : Kept s' s'') : Kept s s'' :=
  ⟨fun a => (h'.nodes a).trans (h.nodes a), h'.maxHeight.trans h.maxHeight, h'.len.trans h.len,
    h'.memUsage.trans h.memUsage⟩

theorem store (s : SkipList) (pred : Ptr) (level : ℕ) (p : Ptr) : Kept s (s.store pred level p) :=
  ⟨map_nodes_store (fun _ _ _ => by simp [Node.data, Node.entry]) s pred level p, by cases pred <;> rfl,
    by cases pred <;> rfl, by cases pred <;> rfl⟩

theorem map_nodes {β : Type} (h : Kept s s') (f : Entry × ℕ → β) (a : ℕ) :
    (s'.nodes[a]?.map fun node => f node.data) = s.nodes[a]?.map fun node => f node.data := by
  have hf := congrArg (Option.map f) (h.nodes a)
  rwa [Option.map_map, Option.map_map] at hf

theorem keyAt (h : Kept s s') : s'.keyAt = s.keyAt := by
  funext a
  exact congrArg (fun o => o.getD ⟨.empty, 0⟩) (h.map_nodes (fun d => d.1.1) a)

theorem heightAt (h : Kept s s') : s'.heightAt = s.heightAt := by
  funext a
  exact congrArg (fun o => o.getD 0) (h.map_nodes (fun d => d.2) a)

theorem entryOf (h : Kept s s') : s'.entryOf = s.entryOf := by
  funext a
  exact congrArg (fun o => o.getD (⟨.empty, 0⟩, .delete)) (h.map_nodes (fun d => d.1) a)

theorem heapSizeOf [Layout] (h : Kept s s') : s'.heapSizeOf = s.heapSizeOf := by
  funext a
  exact congrArg (fun o => o.getD 0) (h.map_nodes (fun d => Layout.node + d.1.1.heapSize +
    d.1.2.heapSize + d.2 * Layout.pointer) a)

end Kept

section insert

variable {L : ℕ → List ℕ} {k : Key} {n m rounds : ℕ} {xs : List ℕ} {A : Arrays}

/-- The store to the tower and the exchange that links the node. -/
def linked (s : SkipList) (a level : ℕ) (p : Ptr) : SkipList :=
  (s.store (some a) level (s.next level p)).store p level (some a)

theorem Kept.linked (s : SkipList) (a level : ℕ) (p : Ptr) : Kept s (s.linked a level p) :=
  (Kept.store ..).trans (Kept.store ..)

theorem next_linked (ha : level < s.heightAt a) (hp : (s.load p level).isSome) (hl : l ≠ level) :
    (s.linked a level p).next l = s.next l := by
  have hload : (s.load (some a) level).isSome := isSome_load_some ha
  have hp' : ((s.store (some a) level (s.next level p)).load p level).isSome := by
    rwa [isSome_load_store]
  rw [linked, next_store hp', if_neg hl, next_store hload, if_neg hl]

/-- In the window of its key a node is linked in. -/
theorem link_eq (h : Levels s L) (hl : l < MAX_HEIGHT) (hp : Below s.keyAt (L l) (s.keyAt a) p)
    (hs : ∀ b ∈ s.next l p, s.keyAt a < s.keyAt b) (ha : a ∉ L l) (htall : l < s.heightAt a)
    (hsub : ∀ m, l = m + 1 → a ∈ L m) :
    s.setTower a l (s.next l p) = some (s.store (some a) l (s.next l p)) ∧
      (s.store (some a) l (s.next l p)).compareExchange p l (s.next l p) (some a) =
        some (true, s.linked a l p) ∧
      ∃ xs, Levels (s.linked a l p) (Function.update L l xs) ∧ xs.Perm (a :: L l) := by
  have hload : (s.load (some a) l).isSome := isSome_load_some htall
  have hown := h.store_own ha htall (s.next l p)
  have hne : p ≠ some a := fun he => ha (hp a he).1
  have hnext : (s.store (some a) l (s.next l p)).next l p = s.next l p := by
    rw [next_store hload, if_pos rfl, Function.update_of_ne hne]
  refine ⟨by rw [setTower, load_eq_next hload]; rfl, ?_, hown.link hl ?_ ?_ ?_ ?_ hsub⟩
  · rw [compareExchange, hown.load_eq hl fun b hb => (hp b hb).1, hnext]
    simp [linked]
  · simpa using hp
  · simpa [hnext] using hs
  · rw [hnext, next_store hload, if_pos rfl, Function.update_self]
  · simpa using htall

/-- The loop over the upper levels links the node at each at the first try. -/
theorem linkLevels_eq (h : Levels s L) (hm : m + n ≤ MAX_HEIGHT) (hm0 : 0 < m)
    (htall : m + n ≤ s.heightAt a) (hin : ∀ l < m, a ∈ L l) (hout : ∀ l, m ≤ l → a ∉ L l)
    (hA : ∀ l, m ≤ l → l < m + n → A.succs l = s.next l (A.preds l) ∧
      Window s (L l) (s.keyAt a) (A.preds l) (A.succs l)) (hr : 0 < rounds) :
    ∃ s' L', s.linkLevels k a rounds n m A = some s' ∧ Levels s' L' ∧ L' 0 = L 0 ∧ Kept s s' := by
  induction n generalizing m s L with
  | zero => exact ⟨s, L, rfl, h, rfl, fun _ => rfl, rfl, rfl, rfl⟩
  | succ n ih =>
      obtain ⟨hs, hw⟩ := hA m le_rfl (by omega)
      have hlt : ∀ b ∈ s.next m (A.preds m), s.keyAt a < s.keyAt b := by
        intro b hb
        obtain ⟨hb, hle⟩ := hw.notBelow b (hs ▸ hb)
        refine lt_of_le_of_ne hle fun he => hout m le_rfl ?_
        have h0 := h.subset_of_le (Nat.zero_le m)
        rwa [eq_of_key (h.ascending 0) (hin 0 hm0) (h0 hb) he]
      obtain ⟨hset, hcas, xs, hL, hperm⟩ := link_eq h (by omega) hw.below hlt (hout m le_rfl)
        (by omega) fun l hl => hin l (by omega)
      have hk := Kept.linked s a m (A.preds m)
      have hin' : ∀ l < m + 1, a ∈ Function.update L m xs l := by
        intro l hl
        by_cases he : l = m
        · rw [he, Function.update_self]
          exact hperm.symm.subset List.mem_cons_self
        · rw [Function.update_of_ne he]
          exact hin l (by omega)
      have hout' : ∀ l, m + 1 ≤ l → a ∉ Function.update L m xs l := by
        intro l hl
        rw [Function.update_of_ne (by omega)]
        exact hout l (by omega)
      have hA' : ∀ l, m + 1 ≤ l → l < m + 1 + n →
          A.succs l = (s.linked a m (A.preds m)).next l (A.preds l) ∧
            Window (s.linked a m (A.preds m)) (Function.update L m xs l)
              ((s.linked a m (A.preds m)).keyAt a) (A.preds l) (A.succs l) := by
        intro l hl hlt
        have hne : l ≠ m := by omega
        have hp := h.isSome_load (by omega) fun b hb => (hw.below b hb).1
        obtain ⟨hsl, hwl⟩ := hA l (by omega) (by omega)
        rw [hk.keyAt, Function.update_of_ne hne, next_linked (by omega) hp hne]
        exact ⟨hsl, hwl.congr hk.keyAt⟩
      obtain ⟨s', L', hs', hL', h0, hk'⟩ := ih hL (by omega) (by omega)
        (by rw [hk.heightAt]; omega) hin' hout' hA'
      refine ⟨s', L', ?_, hL', ?_, hk.trans hk'⟩
      · obtain ⟨r, rfl⟩ := Nat.exists_eq_succ_of_ne_zero hr.ne'
        simp only [linkLevels, linkUpper, hs, hset, hcas, Option.bind_eq_bind, Option.bind_some,
          if_true, Option.pure_def]
        exact hs'
      · rw [h0, Function.update_of_ne (by omega)]

/-- A key that is there is found at level 0. -/
theorem linkBottom_duplicate (h : Levels s L) (h0 : 0 < s.maxHeight)
    (hmax : s.maxHeight ≤ MAX_HEIGHT) (hr : 0 < rounds) (hkey : ∃ b ∈ L 0, s.keyAt b = k)
    (A : Arrays) : ∃ A', s.linkBottom k a rounds A = some (false, s, A') := by
  obtain ⟨A', hfind, -⟩ := find_eq h h0 hmax k A
  obtain ⟨r, rfl⟩ := Nat.exists_eq_succ_of_ne_zero hr.ne'
  exact ⟨A', by simp [linkBottom, hfind, hkey]⟩

/-- An insertion that runs alone links a node with a new key at level 0 at the first try. -/
theorem linkBottom_new (h : Levels s L) (h0 : 0 < s.maxHeight) (hmax : s.maxHeight ≤ MAX_HEIGHT)
    (ha : a ∉ L 0) (htall : 0 < s.heightAt a) (hr : 0 < rounds)
    (hkey : ¬ ∃ b ∈ L 0, s.keyAt b = s.keyAt a) (A : Arrays) :
    ∃ A' xs, s.linkBottom (s.keyAt a) a rounds A = some (true, s.linked a 0 (A'.preds 0), A') ∧
      Levels (s.linked a 0 (A'.preds 0)) (Function.update L 0 xs) ∧ xs.Perm (a :: L 0) ∧
      ∀ l, 1 ≤ l → l < s.maxHeight →
        A'.succs l = (s.linked a 0 (A'.preds 0)).next l (A'.preds l) ∧
          Window s (L l) (s.keyAt a) (A'.preds l) (A'.succs l) := by
  obtain ⟨A', hfind, hin⟩ := find_eq h h0 hmax (s.keyAt a) A
  obtain ⟨r, rfl⟩ := Nat.exists_eq_succ_of_ne_zero hr.ne'
  obtain ⟨hs, hw⟩ := hin 0 h0
  have hlt : ∀ b ∈ s.next 0 (A'.preds 0), s.keyAt a < s.keyAt b := by
    intro b hb
    obtain ⟨hb, hle⟩ := hw.notBelow b (hs ▸ hb)
    exact lt_of_le_of_ne hle fun he => hkey ⟨b, hb, he.symm⟩
  obtain ⟨hset, hcas, xs, hL, hperm⟩ :=
    link_eq h (by decide) hw.below hlt ha htall (fun _ hm => nomatch hm)
  refine ⟨A', xs, ?_, hL, hperm, ?_⟩
  · simp only [linkBottom, hfind, hkey, decide_false, hs, hset, hcas, Option.bind_eq_bind,
      Option.bind_some, Bool.false_eq_true, if_false, if_true, Option.pure_def]
  · intro l hl hlt
    have hp := h.isSome_load (by decide) fun b hb => (hw.below b hb).1
    rw [next_linked htall hp (by omega)]
    exact hin l hlt

/-- The list stores the entries `es`, in the nodes `L 0`. -/
structure Stores [Layout] (s : SkipList) (L : ℕ → List ℕ) (es : List Entry) : Prop where
  levels : Levels s L
  entries : (L 0).map s.entryOf = es
  low : 0 < s.maxHeight
  high : s.maxHeight ≤ MAX_HEIGHT
  len : s.len = es.length
  memUsage : s.memUsage = ((L 0).map s.heapSizeOf).sum

namespace Stores

variable [Layout] {es : List Entry}

theorem new : Stores .new (fun _ => []) [] := ⟨Levels.new, rfl, by decide, by decide, rfl, rfl⟩

theorem keys (h : Stores s L es) : (L 0).map s.keyAt = es.map Prod.fst := by
  rw [← h.entries, List.map_map]
  exact List.map_congr_left fun a _ => (s.fst_entryOf a).symm

theorem sorted (h : Stores s L es) : Sorted es := by
  have hk := List.pairwise_map.mpr (h.levels.ascending 0)
  rw [h.keys] at hk
  exact List.pairwise_map.mp hk

theorem exists_key_iff (h : Stores s L es) (k : Key) :
    (∃ b ∈ L 0, s.keyAt b = k) ↔ ∃ e ∈ es, e.1 = k := by
  rw [← List.mem_map, h.keys, List.mem_map]

/-- `raise` changes nothing that is stored. -/
theorem raise (h : Stores s L es) {height : ℕ} (hh : height ≤ MAX_HEIGHT) :
    Stores (s.raise height) L es ∧ height ≤ (s.raise height).maxHeight := by
  unfold SkipList.raise
  split_ifs with hlt
  · exact ⟨⟨h.levels.of_eq rfl rfl, h.entries, h.low.trans hlt, hh, h.len, h.memUsage⟩, le_rfl⟩
  · exact ⟨h, not_lt.mp hlt⟩

/-- The allocation of a node changes nothing that is stored. -/
theorem alloc (h : Stores s L es) (key : Key) (value : Value) (height : ℕ) :
    Stores (s.alloc key value height) L es := by
  have hget : ∀ a ∈ L 0, (s.alloc key value height).nodes[a]? = s.nodes[a]? :=
    fun a ha => List.getElem?_append_left (h.levels.lt_length ha)
  refine ⟨h.levels.alloc key value height, ?_, h.low, h.high, h.len, ?_⟩
  · rw [← h.entries]
    apply List.map_congr_left
    intro a ha
    simp only [entryOf, hget a ha]
  · refine h.memUsage.trans (congrArg List.sum (List.map_congr_left fun a ha => ?_))
    simp only [heapSizeOf, hget a ha]

/-- With a new node linked in at level 0 the entries are those of `insertEntry`. -/
theorem map_entryOf (h : Stores s L es) (hperm : xs.Perm (a :: L 0))
    (hxs : xs.Pairwise fun a b => s.keyAt a < s.keyAt b)
    (hnew : ∀ x ∈ es, x.1 ≠ (s.entryOf a).1) :
    xs.map s.entryOf = insertEntry (s.entryOf a) es := by
  have hsorted : Sorted (xs.map s.entryOf) := by
    refine List.pairwise_map.mpr (hxs.imp fun hab => ?_)
    rwa [fst_entryOf, fst_entryOf]
  have hp : (xs.map s.entryOf).Perm (insertEntry (s.entryOf a) es) := by
    have hm := hperm.map s.entryOf
    rw [List.map_cons, h.entries] at hm
    exact hm.trans (perm_insertEntry hnew).symm
  exact hp.eq_of_pairwise (fun _ _ _ _ h₁ h₂ => absurd (h₁.trans h₂) (lt_irrefl _)) hsorted
    (h.sorted.insertEntry _)

/-- A node with a new key is linked in and counted. -/
theorem link (h : Stores s L es) (ha : ∀ l, a ∉ L l) (hnew : ∀ x ∈ es, x.1 ≠ s.keyAt a)
    (h1 : 0 < s.heightAt a) (hh : s.heightAt a ≤ s.maxHeight) (hr : 0 < rounds) :
    ∃ s₁ A s₂ L', s.linkBottom (s.keyAt a) a rounds .empty = some (true, s₁, A) ∧
      (s₁.count (s₁.heapSizeOf a)).linkLevels (s.keyAt a) a rounds (s.heightAt a - 1) 1 A =
        some s₂ ∧
      Stores s₂ L' (insertEntry (s.entryOf a) es) := by
  have hkey : ¬ ∃ b ∈ L 0, s.keyAt b = s.keyAt a := by
    rw [h.exists_key_iff]
    exact fun ⟨x, hx, he⟩ => hnew x hx he
  obtain ⟨A, xs, hbot, hL, hperm, hwin⟩ :=
    linkBottom_new h.levels h.low h.high (ha 0) h1 hr hkey .empty
  have hk : Kept s (s.linked a 0 (A.preds 0)) := Kept.linked s a 0 (A.preds 0)
  generalize hs₁ : s.linked a 0 (A.preds 0) = s₁ at hbot hL hwin hk
  have hin : ∀ l < 1, a ∈ Function.update L 0 xs l := by
    intro l hl
    rw [Nat.lt_one_iff.mp hl, Function.update_self]
    exact hperm.symm.subset List.mem_cons_self
  have hout : ∀ l, 1 ≤ l → a ∉ Function.update L 0 xs l := by
    intro l hl
    rw [Function.update_of_ne (by omega)]
    exact ha l
  have hwin' : ∀ l, 1 ≤ l → l < 1 + (s.heightAt a - 1) → A.succs l = s₁.next l (A.preds l) ∧
      Window (s₁.count (s₁.heapSizeOf a)) (Function.update L 0 xs l) (s₁.keyAt a) (A.preds l)
        (A.succs l) := by
    intro l hl hlt
    obtain ⟨hs, hw⟩ := hwin l hl (by omega)
    rw [Function.update_of_ne (by omega), hk.keyAt]
    exact ⟨hs, hw.congr hk.keyAt⟩
  have hmax := h.high
  have hheight : s₁.heightAt a = s.heightAt a := by rw [hk.heightAt]
  obtain ⟨s₂, L', hs₂, hL', h0, hk'⟩ := linkLevels_eq (k := s.keyAt a)
    (hL.of_eq rfl rfl : Levels (s₁.count (s₁.heapSizeOf a)) (Function.update L 0 xs))
    (by omega) one_pos (show 1 + (s.heightAt a - 1) ≤ s₁.heightAt a by omega) hin hout hwin' hr
  have hentry : s₂.entryOf = s.entryOf := hk'.entryOf.trans hk.entryOf
  have hsize : s₂.heapSizeOf = s.heapSizeOf := hk'.heapSizeOf.trans hk.heapSizeOf
  have hL0 : L' 0 = xs := by rw [h0, Function.update_self]
  have hxs : xs.map s.entryOf = insertEntry (s.entryOf a) es := by
    have hasc := hL.ascending 0
    rw [Function.update_self, hk.keyAt] at hasc
    exact h.map_entryOf hperm hasc fun x hx => by rw [fst_entryOf]; exact hnew x hx
  refine ⟨s₁, A, s₂, L', hbot, hs₂, hL', ?_, ?_, ?_, ?_, ?_⟩
  · rw [hL0, hentry, hxs]
  · rw [hk'.maxHeight]
    exact hk.maxHeight ▸ h.low
  · rw [hk'.maxHeight]
    exact hk.maxHeight ▸ h.high
  · have hlen := (perm_insertEntry fun x hx => (hnew x hx).trans_eq (fst_entryOf s a).symm).length_eq
    rw [hk'.len, hlen]
    exact congrArg (· + 1) (hk.len.trans h.len)
  · rw [hk'.memUsage, hL0, hsize, (hperm.map s.heapSizeOf).sum_nat, List.map_cons, List.sum_cons]
    show s₁.memUsage + s₁.heapSizeOf a = _
    rw [hk.memUsage, hk.heapSizeOf, h.memUsage, Nat.add_comm]

end Stores

@[simp] theorem nodes_raise (s : SkipList) (height : ℕ) : (s.raise height).nodes = s.nodes := by
  unfold raise
  split_ifs <;> rfl

/-- One insertion: it succeeds, answers whether the key is new, and stores the entry if it is. -/
theorem insert_eq [Layout] {es : List Entry} (h : Stores s L es) {height : ℕ} (h1 : 0 < height)
    (hh : height ≤ MAX_HEIGHT) (hr : 0 < rounds) (e : Entry) :
    ∃ s' L', s.insert rounds height e.1 e.2 = some (decide (∀ x ∈ es, x.1 ≠ e.1), s') ∧
      Stores s' L' (insertEntry e es) ∧
      ((∃ x ∈ es, x.1 = e.1) → s'.memUsage = s.memUsage) := by
  obtain ⟨hst, hraise⟩ := h.raise hh
  have hst := hst.alloc e.1 e.2 height
  have hnode : ((s.raise height).alloc e.1 e.2 height).nodes[s.nodes.length]? =
      some (Node.alloc e.1 e.2 height) := by simp [alloc]
  generalize ht : (s.raise height).alloc e.1 e.2 height = t at hst hnode
  have hentry : t.entryOf s.nodes.length = e := by simp [entryOf, hnode, Node.alloc, Node.entry]
  have hkey : t.keyAt s.nodes.length = e.1 := by rw [← fst_entryOf, hentry]
  have hheight : t.heightAt s.nodes.length = height := by simp [heightAt, hnode, Node.alloc]
  by_cases hdup : ∃ x ∈ es, x.1 = e.1
  · obtain ⟨A, hbot⟩ := linkBottom_duplicate (a := s.nodes.length) hst.levels hst.low hst.high hr
      ((hst.exists_key_iff e.1).mpr hdup) .empty
    obtain ⟨x, hx, hk⟩ := hdup
    refine ⟨t, L, ?_, ?_, ?_⟩
    · have hnot : ¬ ∀ x ∈ es, x.1 ≠ e.1 := fun hall => hall x hx hk
      rw [decide_eq_false hnot]
      simp [SkipList.insert, ht, hbot]
    · rwa [insertEntry_of_mem h.sorted hx hk]
    · intro _
      rw [← ht]
      unfold alloc raise
      split_ifs <;> rfl
  · have hall : ∀ x ∈ es, x.1 ≠ e.1 := fun x hx hk => hdup ⟨x, hx, hk⟩
    have hout : ∀ l, s.nodes.length ∉ L l := fun l hm => lt_irrefl _ (h.levels.lt_length hm)
    obtain ⟨s₁, A, s₂, L', hbot, hlev, hst'⟩ := hst.link hout (hkey.symm ▸ hall)
      (hheight.symm ▸ h1) (by rw [hheight, ← ht]; exact hraise) hr
    rw [hkey] at hbot hlev
    rw [hheight] at hlev
    rw [hentry] at hst'
    refine ⟨s₂, L', ?_, hst', fun hd => absurd hd hdup⟩
    rw [decide_eq_true hall]
    simp [SkipList.insert, ht, hbot, hlev]

/-- Insertions one after the other, each with the height it has drawn. -/
def insertAll [Layout] (rounds : ℕ) (s : SkipList) (ops : List (ℕ × Entry)) : Option SkipList :=
  ops.foldlM (fun s op => (s.insert rounds op.1 op.2.1 op.2.2).map Prod.snd) s

theorem insertAll_eq [Layout] {t : MemTable} (h : Stores s L t.entries) (hr : 0 < rounds)
    {ops : List (ℕ × Entry)} (hops : ∀ op ∈ ops, 1 ≤ op.1 ∧ op.1 ≤ MAX_HEIGHT) :
    ∃ s' L', insertAll rounds s ops = some s' ∧
      Stores s' L' (t.putAll (ops.map Prod.snd)).entries := by
  induction ops generalizing s L t with
  | nil => exact ⟨s, L, rfl, h⟩
  | cons op ops ih =>
      obtain ⟨⟨h1, hh⟩, hops⟩ := List.forall_mem_cons.mp hops
      obtain ⟨s₁, L₁, hs₁, hst₁, -⟩ := insert_eq h h1 hh hr op.2
      obtain ⟨s₂, L₂, hs₂, hst₂⟩ := ih (t := t.put op.2.1 op.2.2) hst₁ hops
      refine ⟨s₂, L₂, ?_, hst₂⟩
      rw [insertAll, List.foldlM_cons, hs₁]
      exact hs₂

end insert

/-! ### Answers -/

namespace Stores

variable [Layout] {L : ℕ → List ℕ} {es : List Entry} {xs : List ℕ}

theorem iterNodes_eq (h : Stores s L es) (hc : Chain (s.next 0) p xs) (hxs : xs <:+ L 0) :
    ∃ nodes, s.iterNodes s.nodes.length (s.next 0 p) = some nodes ∧
      nodes.map Node.entry = xs.map s.entryOf ∧ nodes.map Node.heapSize = xs.map s.heapSizeOf := by
  have hlen := hxs.length_le.trans (h.levels.length_le 0)
  obtain ⟨nodes, hn, hmap⟩ := SkipList.iterNodes_eq h.levels hc hxs.subset hlen
  refine ⟨nodes, hn, ?_, ?_⟩
  · have he := congrArg (List.map fun o => (o.map Node.entry).getD (⟨.empty, 0⟩, .delete)) hmap
    rw [List.map_map, List.map_map] at he
    exact he.symm
  · have he := congrArg (List.map fun o => (o.map Node.heapSize).getD 0) hmap
    rw [List.map_map, List.map_map] at he
    exact he.symm

theorem level0_eq (h : Stores s L es) :
    ∃ nodes, s.level0 = some nodes ∧ nodes.map Node.entry = es ∧
      s.memUsage = (nodes.map Node.heapSize).sum := by
  obtain ⟨nodes, hn, he, hs⟩ := h.iterNodes_eq (h.levels.chain 0 (by decide)) (List.suffix_refl _)
  refine ⟨nodes, ?_, he.trans h.entries, by rw [hs, h.memUsage]⟩
  rw [level0, h.levels.load_eq (by decide) (by simp)]
  exact hn

theorem iter_eq (h : Stores s L es) : s.iter = some es := by
  obtain ⟨nodes, hn, he, -⟩ := h.level0_eq
  rw [iter, hn, Option.map_some, he]

/-- What lies behind the node a search stops at. -/
theorem seek_eq (h : Stores s L es) (k : Key) :
    ∃ p pre post, s.seek k = some (s.next 0 p) ∧ L 0 = pre ++ post ∧ Chain (s.next 0) p post ∧
      post.map s.entryOf = es.filter (fun e => k ≤ e.1) := by
  obtain ⟨p, pre, post, hseek, hL, hc, hpre, hpost⟩ :=
    SkipList.seek_eq h.levels h.low h.high k
  refine ⟨p, pre, post, hseek, hL, hc, ?_⟩
  have he := h.entries
  rw [hL, List.map_append] at he
  rw [← he, List.filter_append, List.filter_eq_nil_iff.mpr, List.nil_append,
    List.filter_eq_self.mpr]
  · intro e he
    obtain ⟨b, hb, rfl⟩ := List.mem_map.mp he
    simpa [fst_entryOf] using hpost b hb
  · intro e he
    obtain ⟨b, hb, rfl⟩ := List.mem_map.mp he
    simpa [fst_entryOf] using hpre b hb

theorem iterFrom_eq (h : Stores s L es) (u : Str) (n : UInt64) :
    s.iterFrom u n = some (es.filter fun e => (⟨u, n⟩ : Key) ≤ e.1) := by
  obtain ⟨p, pre, post, hseek, hL, hc, he⟩ := h.seek_eq ⟨u, n⟩
  obtain ⟨nodes, hn, hmap, -⟩ := h.iterNodes_eq hc (hL ▸ List.suffix_append pre post)
  simp only [iterFrom, hseek, Option.bind_eq_bind, Option.bind_some, hn, Option.pure_def, hmap, he]

theorem getEntryAt_eq (h : Stores s L es) (u : Str) (n : UInt64) :
    s.getEntryAt u n = some (LowDB.entryAt es u n.toNat) := by
  obtain ⟨p, pre, post, hseek, hL, hc, he⟩ := h.seek_eq ⟨u, n⟩
  have hfind : (es.find? fun e => ¬ e.1.before u n.toNat) = (post.map s.entryOf).head? := by
    rw [he, List.head?_filter]
    refine congrArg (List.find? · es) (funext fun e => ?_)
    rw [decide_eq_decide, ← not_lt]
    exact not_congr (Key.before_iff (k := ⟨u, n⟩))
  rw [getEntryAt, hseek, hc.next_eq, LowDB.entryAt, hfind]
  cases post with
  | nil => rfl
  | cons c cs =>
      have hc0 : c ∈ L 0 := hL ▸ List.mem_append_right _ List.mem_cons_self
      obtain ⟨node, hnode⟩ : ∃ node, s.nodes[c]? = some node :=
        Option.isSome_iff_exists.mp (by simpa using h.levels.lt_length hc0)
      simp [hnode, entryOf, Option.filter, Node.entry]

end Stores

/-- The list answers like the sorted list `es`. -/
structure Represents [Layout] (s : SkipList) (es : List Entry) : Prop where
  sorted : Sorted es
  iter : s.iter = some es
  iterFrom (u : Str) (n : UInt64) :
    s.iterFrom u n = some (es.filter fun e => (⟨u, n⟩ : Key) ≤ e.1)
  getEntryAt (u : Str) (n : UInt64) :
    (∀ e ∈ es, e.1.user = u → n.toNat < e.1.seq.toNat) ∧ s.getEntryAt u n = some none ∨
      ∃ x ∈ es, x.1.user = u ∧ x.1.seq.toNat ≤ n.toNat ∧
        (∀ e ∈ es, e.1.user = u → e.1.seq.toNat ≤ n.toNat → e.1.seq.toNat ≤ x.1.seq.toNat) ∧
        s.getEntryAt u n = some (some x)
  len : s.len = es.length
  memUsage : ∃ nodes, s.level0 = some nodes ∧ nodes.map Node.entry = es ∧
    s.memUsage = (nodes.map Node.heapSize).sum

theorem Stores.represents [Layout] {L : ℕ → List ℕ} {es : List Entry} (h : Stores s L es) :
    Represents s es where
  sorted := h.sorted
  iter := h.iter_eq
  iterFrom := h.iterFrom_eq
  getEntryAt u n := by
    rw [h.getEntryAt_eq]
    rcases entryAt_newest h.sorted.pairwise_le u n.toNat with ⟨hnone, ha⟩ | ⟨x, hx, hu, hs, hmax, ha⟩
    · exact .inl ⟨hnone, congrArg some ha⟩
    · exact .inr ⟨x, hx, hu, hs, hmax, congrArg some ha⟩
  len := h.len
  memUsage := h.level0_eq

/-- After any insertions the list answers like the sorted list of the versions inserted, of several
values for one version the first, and the next insertion is accepted exactly when its version is
new.  Nothing of this depends on the heights. -/
theorem skipList_refines [Layout] {rounds : ℕ} (hr : 0 < rounds) {ops : List (ℕ × Entry)}
    (hops : ∀ op ∈ ops, 1 ≤ op.1 ∧ op.1 ≤ MAX_HEIGHT) :
    ∃ s es, insertAll rounds .new ops = some s ∧ Represents s es ∧
      es = ((MemTable.new 0).putAll (ops.map Prod.snd)).entries ∧
      (∀ e, e ∈ es ↔ (ops.map Prod.snd).find? (fun x => x.1 = e.1) = some e) ∧
      ∀ (height : ℕ) (e : Entry), 1 ≤ height → height ≤ MAX_HEIGHT →
        ∃ s', s.insert rounds height e.1 e.2 = some (decide (∀ x ∈ es, x.1 ≠ e.1), s') ∧
          ((∃ x ∈ es, x.1 = e.1) →
            Represents s' es ∧ s'.len = s.len ∧ s'.memUsage = s.memUsage) := by
  obtain ⟨s, L, hs, hst⟩ := insertAll_eq (t := .new 0) Stores.new hr hops
  refine ⟨s, _, hs, hst.represents, rfl, ?_, ?_⟩
  · intro e
    rw [MemTable.mem_putAll]
    simp
  · intro height e h1 hh
    obtain ⟨s', L', hs', hst', hm⟩ := insert_eq hst h1 hh hr e
    refine ⟨s', hs', ?_⟩
    intro hdup
    obtain ⟨x, hx, hk⟩ := hdup
    rw [insertEntry_of_mem hst.sorted hx hk] at hst'
    exact ⟨hst'.represents, hst'.len.trans hst.len.symm, hm ⟨x, hx, hk⟩⟩

/-- The versions 1 and 3 of a key, the newer one in a higher tower, and the version 1 again. -/
theorem skipList_refines_twoVersions :
    ∃ s, @insertAll ⟨64, 8⟩ 1 .new
        [(1, ⟨.ascii [0x6b], 1⟩, .delete), (16, ⟨.ascii [0x6b], 3⟩, .set (.ascii [0x76])),
          (2, ⟨.ascii [0x6b], 1⟩, .set (.ascii [0x77]))] = some s ∧
      s.iter = some [(⟨.ascii [0x6b], 3⟩, .set (.ascii [0x76])), (⟨.ascii [0x6b], 1⟩, .delete)] := by
  obtain ⟨s, es, hs, h, hes, -⟩ := @skipList_refines ⟨64, 8⟩ 1 (by decide)
    [(1, ⟨.ascii [0x6b], 1⟩, .delete), (16, ⟨.ascii [0x6b], 3⟩, .set (.ascii [0x76])),
      (2, ⟨.ascii [0x6b], 1⟩, .set (.ascii [0x77]))] (by decide)
  refine ⟨s, hs, (@Represents.iter ⟨64, 8⟩ _ _ h).trans ?_⟩
  rw [hes]
  decide

end SkipList

end LowDB
