import Mathlib.Data.List.Dedup
import LowDB.MemTable.SkipList

/-! # Concurrent insertions

Any number of `SkipList::insert` calls run at the same time; a step is one atomic load, store or
exchange of one call, and the steps of different calls come in any order.  What a call has read may
be out of date when it uses it.

`Call.Inv` says what a call can still rely on: a node that it has seen in a level stays there, and
its own node is in exactly the levels it has linked it into.  An exchange that succeeds therefore
links the node in between its neighbours, although the predecessor was found earlier
(`Call.Inv.stepped`), and no step of one call disturbs another (`Call.Inv.grown`). -/

namespace LowDB

open Chains

namespace SkipList

/-! ### The calls -/

/-- The next atomic access of a call.  `level` is the level that the call is about to link, `A` are
its arrays. -/
inductive Pc where
  | loadHeight
  | raise (observed : ℕ)
  | search (level : ℕ) (A : Arrays)
  | find (level : ℕ) (A : Arrays) (l : ℕ) (pred : Ptr)
  | store (level : ℕ) (A : Arrays)
  | swap (level : ℕ) (A : Arrays)
  | addLen (A : Arrays)
  | addMem (A : Arrays)
  | done (inserted : Bool)
  | panicked

/-- A call of `insert`, with the height it has drawn and its node. -/
structure Call where
  key : Key
  value : Value
  height : ℕ
  node : ℕ
  pc : Pc

namespace Call

/-- `while height > observed`. -/
def whileHigher (c : Call) (observed : ℕ) : Pc :=
  if observed < c.height then .raise observed else .search 0 .empty

/-- What follows the loop of `find`: at level 0 the call ends if it has found its key. -/
def found (c : Call) (s : SkipList) (level : ℕ) (A : Arrays) : Pc :=
  if level = 0 ∧ s.hasKey c.key (A.succs 0) then .done false else .store level A

/-- `find` has loaded `curr` behind `pred` at the level `l`. -/
def loaded (c : Call) (s : SkipList) (level : ℕ) (A : Arrays) (l : ℕ) (pred curr : Ptr) : Pc :=
  if curr.any fun n => s.keyAt n < c.key then .find level A l curr
  else
    match l with
    | 0 => c.found s level (A.set 0 pred curr)
    | l + 1 => .find level (A.set (l + 1) pred curr) l pred

/-- `for level in 1..height`, after `level`. -/
def nextLevel (c : Call) (level : ℕ) (A : Arrays) : Pc :=
  if level + 1 < c.height then .store (level + 1) A else .done true

/-- One atomic access.  A weak exchange may fail for no reason (`spurious`). -/
def step [Layout] (c : Call) (s : SkipList) (spurious : Bool) : SkipList × Pc :=
  match c.pc with
  | .loadHeight => (s, c.whileHigher s.maxHeight)
  | .raise observed =>
    if s.maxHeight = observed ∧ spurious = false then
      ({ s with maxHeight := c.height }, .search 0 .empty)
    else (s, c.whileHigher s.maxHeight)
  | .search level A =>
    match s.maxHeight with
    | 0 => (s, c.found s level A)
    | l + 1 => (s, .find level A l none)
  | .find level A l pred =>
    match s.load pred l with
    | none => (s, .panicked)
    | some curr => (s, c.loaded s level A l pred curr)
  | .store level A =>
    match s.setTower c.node level (A.succs level) with
    | none => (s, .panicked)
    | some s' => (s', .swap level A)
  | .swap level A =>
    match s.compareExchange (A.preds level) level (A.succs level) (some c.node) with
    | none => (s, .panicked)
    | some (true, s') => (s', if level = 0 then .addLen A else c.nextLevel level A)
    | some (false, s') => (s', .search level A)
  | .addLen A => ({ s with len := s.len + 1 }, .addMem A)
  | .addMem A => ({ s with memUsage := s.memUsage + s.heapSizeOf c.node }, c.nextLevel 0 A)
  | .done inserted => (s, .done inserted)
  | .panicked => (s, .panicked)

end Call

/-- The list and the calls made so far. -/
structure Calls where
  list : SkipList
  calls : List Call

/-- A new call, or the next access of the call `i`. -/
inductive CallAct where
  | call (key : Key) (value : Value) (height : ℕ)
  | step (i : ℕ) (spurious : Bool)

namespace Calls

def start : Calls := ⟨.new, []⟩

/-- A new call allocates its node, which no other call can see before it is linked. -/
def step [Layout] (st : Calls) : CallAct → Option Calls
  | .call key value height =>
    if 1 ≤ height ∧ height ≤ MAX_HEIGHT then
      some ⟨st.list.alloc key value height,
        st.calls ++ [⟨key, value, height, st.list.nodes.length, .loadHeight⟩]⟩
    else none
  | .step i spurious => do
    let c ← st.calls[i]?
    let (list, pc) := c.step st.list spurious
    return ⟨list, st.calls.set i { c with pc := pc }⟩

/-- The steps `acts`, one after the other. -/
def run [Layout] (st : Calls) (acts : List CallAct) : Option Calls := acts.foldlM step st

end Calls

/-- What a call has returned. -/
def Pc.answer : Pc → Option Bool
  | .done inserted => some inserted
  | _ => none

/-! ### What a call can rely on -/

/-- From `s` and `L` to `s'` and `L'` the chains have grown, at most by the node `a`; towers of nodes
that are not in a level have changed at most for `a`. -/
structure Grown (a : ℕ) (s : SkipList) (L : ℕ → List ℕ) (s' : SkipList) (L' : ℕ → List ℕ) :
    Prop where
  nodes : ∀ b < s.nodes.length, s'.nodes[b]?.map Node.data = s.nodes[b]?.map Node.data
  mono : ∀ l, L l ⊆ L' l
  only : ∀ l, ∀ b ∈ L' l, b ∈ L l ∨ b = a
  next : ∀ l, ∀ b, b ≠ a → b ∉ L l → b < s.nodes.length → s'.next l (some b) = s.next l (some b)
  maxHeight : s.maxHeight ≤ s'.maxHeight

/-- The node is in the levels below `n`. -/
def LinkedTo (L : ℕ → List ℕ) (a n : ℕ) : Prop := ∀ l, a ∈ L l ↔ l < n

namespace Call

/-- The arrays hold windows of the key at the levels from `n` on. -/
def Windows (c : Call) (s : SkipList) (L : ℕ → List ℕ) (n : ℕ) (A : Arrays) : Prop :=
  ∀ l, n ≤ l → l < c.height → Window s (L l) c.key (A.preds l) (A.succs l)

/-- The level is to be linked in a window; at level 0 the successor is not the key itself. -/
structure Ready (c : Call) (s : SkipList) (L : ℕ → List ℕ) (level : ℕ) (A : Arrays) : Prop where
  linked : LinkedTo L c.node level
  lt : level < c.height
  raised : c.height ≤ s.maxHeight
  windows : c.Windows s L level A
  fresh : level = 0 → ∀ b ∈ A.succs 0, c.key < s.keyAt b

def PcInv (c : Call) (s : SkipList) (L : ℕ → List ℕ) : Prop :=
  match c.pc with
  | .loadHeight => LinkedTo L c.node 0
  | .raise observed => LinkedTo L c.node 0 ∧ observed < c.height
  | .search level _ => LinkedTo L c.node level ∧ level < c.height ∧ c.height ≤ s.maxHeight
  | .find level A l pred => LinkedTo L c.node level ∧ level < c.height ∧
      c.height ≤ s.maxHeight ∧ l < MAX_HEIGHT ∧ Below s.keyAt (L l) c.key pred ∧
      c.Windows s L (l + 1) A
  | .store level A => c.Ready s L level A
  | .swap level A => c.Ready s L level A ∧ s.next level (some c.node) = A.succs level
  | .addLen A => LinkedTo L c.node 1 ∧ c.height ≤ s.maxHeight ∧ c.Windows s L 1 A
  | .addMem A => LinkedTo L c.node 1 ∧ c.height ≤ s.maxHeight ∧ c.Windows s L 1 A
  | .done true => LinkedTo L c.node c.height
  | .done false => LinkedTo L c.node 0 ∧ ∃ b ∈ L 0, s.keyAt b = c.key
  | .panicked => False

structure Inv (c : Call) (s : SkipList) (L : ℕ → List ℕ) : Prop where
  data : s.nodes[c.node]?.map Node.data = some ((c.key, c.value), c.height)
  pos : 1 ≤ c.height
  le : c.height ≤ MAX_HEIGHT
  pc : c.PcInv s L

end Call

/-! ### A step of one call leaves the others alone -/

variable {s s' : SkipList} {L L' : ℕ → List ℕ} {a b l n : ℕ} {k : Key} {p q : Ptr} {c : Call}
  {A : Arrays}

namespace Grown

theorem of_eq (hn : s'.nodes = s.nodes) (hm : s.maxHeight ≤ s'.maxHeight) :
    Grown a s L s' L := by
  refine ⟨fun b _ => by rw [hn], fun _ => List.Subset.refl _, fun _ _ hb => .inl hb, ?_, hm⟩
  intro l b _ _ _
  simp only [SkipList.next, load, hn]

theorem keyAt (g : Grown a s L s' L') (hb : b < s.nodes.length) : s'.keyAt b = s.keyAt b := by
  have hd := congrArg (Option.map fun d : Entry × ℕ => d.1.1) (g.nodes b hb)
  rw [Option.map_map, Option.map_map] at hd
  exact congrArg (fun o => o.getD ⟨.empty, 0⟩) hd

theorem entryOf (g : Grown a s L s' L') (hb : b < s.nodes.length) :
    s'.entryOf b = s.entryOf b := by
  have hd := congrArg (Option.map fun d : Entry × ℕ => d.1) (g.nodes b hb)
  rw [Option.map_map, Option.map_map] at hd
  exact congrArg (fun o => o.getD (⟨.empty, 0⟩, .delete)) hd

theorem below (g : Grown a s L s' L') (h : Levels s L) (hp : Below s.keyAt (L l) k p) :
    Below s'.keyAt (L' l) k p := by
  intro b hb
  obtain ⟨hm, hk⟩ := hp b hb
  rw [g.keyAt (h.lt_length hm)]
  exact ⟨g.mono l hm, hk⟩

theorem notBelow (g : Grown a s L s' L') (h : Levels s L) (hp : NotBelow s.keyAt (L l) k p) :
    NotBelow s'.keyAt (L' l) k p := by
  intro b hb
  obtain ⟨hm, hk⟩ := hp b hb
  rw [g.keyAt (h.lt_length hm)]
  exact ⟨g.mono l hm, hk⟩

theorem windows (g : Grown a s L s' L') (h : Levels s L) (hw : c.Windows s L n A) :
    c.Windows s' L' n A := fun l hl hlt =>
  ⟨g.below h (hw l hl hlt).below, g.notBelow h (hw l hl hlt).notBelow⟩

theorem linkedTo (g : Grown a s L s' L') (hne : b ≠ a) (hl : LinkedTo L b n) : LinkedTo L' b n := by
  intro l
  rw [← hl l]
  constructor
  · exact fun hb => (g.only l b hb).resolve_right hne
  · exact fun hb => g.mono l hb

theorem ready (g : Grown a s L s' L') (h : Levels s L) (hne : c.node ≠ a)
    (hr : c.Ready s L n A) : c.Ready s' L' n A := by
  refine ⟨g.linkedTo hne hr.linked, hr.lt, hr.raised.trans g.maxHeight,
    g.windows h hr.windows, ?_⟩
  rintro rfl b hb
  have hm := (hr.windows 0 le_rfl hr.lt).notBelow b hb
  rw [g.keyAt (h.lt_length hm.1)]
  exact hr.fresh rfl b hb

end Grown

theorem Call.Inv.lt_length (hc : c.Inv s L) : c.node < s.nodes.length := by
  by_contra hge
  have hd := hc.data
  rw [List.getElem?_eq_none (not_lt.mp hge)] at hd
  cases hd

/-- A call keeps what it relies on while another call takes a step. -/
theorem Call.Inv.grown (hc : c.Inv s L) (h : Levels s L) (g : Grown a s L s' L')
    (hne : c.node ≠ a) : c.Inv s' L' := by
  have hlt := hc.lt_length
  refine ⟨(g.nodes _ hlt).trans hc.data, hc.pos, hc.le, ?_⟩
  have hpc := hc.pc
  unfold Call.PcInv at hpc ⊢
  split at hpc
  · exact g.linkedTo hne hpc
  · exact ⟨g.linkedTo hne hpc.1, hpc.2⟩
  · exact ⟨g.linkedTo hne hpc.1, hpc.2.1, hpc.2.2.trans g.maxHeight⟩
  · obtain ⟨hl, hlt, hh, hmax, hp, hw⟩ := hpc
    exact ⟨g.linkedTo hne hl, hlt, hh.trans g.maxHeight, hmax, g.below h hp, g.windows h hw⟩
  · exact g.ready h hne hpc
  · obtain ⟨hr, hn⟩ := hpc
    refine ⟨g.ready h hne hr, ?_⟩
    rw [g.next _ _ hne (fun hm => absurd ((hr.linked _).mp hm) (lt_irrefl _)) hlt, hn]
  · exact ⟨g.linkedTo hne hpc.1, hpc.2.1.trans g.maxHeight, g.windows h hpc.2.2⟩
  · exact ⟨g.linkedTo hne hpc.1, hpc.2.1.trans g.maxHeight, g.windows h hpc.2.2⟩
  · exact g.linkedTo hne hpc
  · obtain ⟨hl, b, hb, hk⟩ := hpc
    exact ⟨g.linkedTo hne hl, b, g.mono 0 hb, (g.keyAt (h.lt_length hb)).trans hk⟩
  · exact hpc

/-! ### The step of a call -/

/-- A call that has linked its node and not yet counted it. -/
def Pc.pending : Pc → ℕ
  | .addLen _ => 1
  | _ => 0

/-- The step that `c` takes from `s` with the chains `L`: what it relies on afterwards, and how the
list has changed. -/
structure Stepped (c : Call) (s : SkipList) (L : ℕ → List ℕ) (s' : SkipList) (pc : Pc)
    (L' : ℕ → List ℕ) : Prop where
  levels : Levels s' L'
  grown : Grown c.node s L s' L'
  inv : Call.PcInv { c with pc := pc } s' L'
  high : s'.maxHeight ≤ MAX_HEIGHT
  len : s'.len + pc.pending + (L 0).length = s.len + c.pc.pending + (L' 0).length

namespace Call

theorem Inv.keyAt (hc : c.Inv s L) : s.keyAt c.node = c.key := by
  have hd := congrArg (Option.map fun d : Entry × ℕ => d.1.1) hc.data
  rw [Option.map_map] at hd
  exact congrArg (fun o => o.getD ⟨.empty, 0⟩) hd

theorem Inv.entryOf (hc : c.Inv s L) : s.entryOf c.node = (c.key, c.value) := by
  have hd := congrArg (Option.map fun d : Entry × ℕ => d.1) hc.data
  rw [Option.map_map] at hd
  exact congrArg (fun o => o.getD (⟨.empty, 0⟩, .delete)) hd

theorem Inv.heightAt (hc : c.Inv s L) : s.heightAt c.node = c.height := by
  have hd := congrArg (Option.map fun d : Entry × ℕ => d.2) hc.data
  rw [Option.map_map] at hd
  exact congrArg (fun o => o.getD 0) hd

@[simp] theorem pending_whileHigher (c : Call) (n : ℕ) : (c.whileHigher n).pending = 0 := by
  unfold whileHigher
  split_ifs <;> rfl

@[simp] theorem pending_found (c : Call) (s : SkipList) (level : ℕ) (A : Arrays) :
    (c.found s level A).pending = 0 := by
  unfold found
  split_ifs <;> rfl

@[simp] theorem pending_loaded (c : Call) (s : SkipList) (level : ℕ) (A : Arrays) (l : ℕ)
    (p q : Ptr) : (c.loaded s level A l p q).pending = 0 := by
  unfold loaded
  split_ifs
  · rfl
  · cases l with
    | zero => exact pending_found ..
    | succ l => rfl

@[simp] theorem pending_nextLevel (c : Call) (level : ℕ) (A : Arrays) :
    (c.nextLevel level A).pending = 0 := by
  unfold nextLevel
  split_ifs <;> rfl

variable {level : ℕ}

theorem Windows.mono (hw : c.Windows s L n A) {m : ℕ} (hm : n ≤ m) : c.Windows s L m A :=
  fun l hl => hw l (hm.trans hl)

theorem Windows.congr (hw : c.Windows s L n A) (hk : s'.keyAt = s.keyAt) : c.Windows s' L n A :=
  fun l hl hlt => (hw l hl hlt).congr hk

theorem Windows.set (hw : c.Windows s L (n + 1) A) (h : Window s (L n) c.key p q) :
    c.Windows s L n (A.set n p q) := by
  intro l hl hlt
  by_cases he : l = n
  · subst he
    simpa [Arrays.set] using h
  · simpa [Arrays.set, he] using hw l (by omega) hlt

/-! #### Control flow -/

theorem pcInv_whileHigher (hl : LinkedTo L c.node 0) (hpos : 1 ≤ c.height) :
    PcInv { c with pc := c.whileHigher s.maxHeight } s L := by
  unfold whileHigher
  split_ifs with hlt
  · exact ⟨hl, hlt⟩
  · exact ⟨hl, hpos, not_lt.mp hlt⟩

theorem pcInv_found (hl : LinkedTo L c.node level) (hlt : level < c.height)
    (hh : c.height ≤ s.maxHeight) (hw : c.Windows s L 0 A) : PcInv { c with pc := c.found s level A } s L := by
  have h0 := hw 0 le_rfl (by omega)
  unfold found
  split_ifs with hf
  · obtain ⟨rfl, hk⟩ := hf
    cases hs : A.succs 0 with
    | none => simp [hasKey, hs] at hk
    | some b =>
        refine ⟨hl, b, (h0.notBelow b hs).1, ?_⟩
        simpa [hasKey, hs] using hk
  · refine ⟨hl, hlt, hh, hw.mono (Nat.zero_le _), ?_⟩
    intro he b hb
    refine lt_of_le_of_ne (h0.notBelow b hb).2 fun hk => hf ⟨he, ?_⟩
    have hb : A.succs 0 = some b := hb
    have hk : s.keyAt b = c.key := hk.symm
    simp [hasKey, hb, hk]

theorem pcInv_loaded (h : Levels s L) (hl : LinkedTo L c.node level) (hlt : level < c.height)
    (hh : c.height ≤ s.maxHeight) (hmax : l < MAX_HEIGHT) (hp : Below s.keyAt (L l) c.key p)
    (hw : c.Windows s L (l + 1) A) :
    PcInv { c with pc := c.loaded s level A l p (s.next l p) } s L := by
  have hmem : ∀ b ∈ s.next l p, b ∈ L l := fun b hb =>
    (h.chain l hmax).mem_of_next (fun b hb => (hp b hb).1) hb
  unfold loaded
  split_ifs with hlow
  · refine ⟨hl, hlt, hh, hmax, fun b hb => ⟨hmem b hb, ?_⟩, hw⟩
    have hb : s.next l p = some b := hb
    simpa [hb] using hlow
  · have hwin : Window s (L l) c.key p (s.next l p) := by
      refine ⟨hp, fun b hb => ⟨hmem b hb, ?_⟩⟩
      have hb : s.next l p = some b := hb
      simpa [hb] using hlow
    cases l with
    | zero => exact pcInv_found hl hlt hh (hw.set hwin)
    | succ l => exact ⟨hl, hlt, hh, by omega, hp.mono (h.sub l), hw.set hwin⟩

theorem pcInv_nextLevel (hl : LinkedTo L c.node (level + 1)) (hlt : level < c.height)
    (hh : c.height ≤ s.maxHeight) (hw : c.Windows s L (level + 1) A) : PcInv { c with pc := c.nextLevel level A } s L := by
  unfold nextLevel
  split_ifs with h
  · exact ⟨hl, h, hh, hw, fun he => absurd he (Nat.succ_ne_zero level)⟩
  · show LinkedTo L c.node c.height
    rwa [show c.height = level + 1 by omega]

/-! #### Loads, stores and exchanges -/

/-- A step that changes no tower. -/
theorem stepped_of_eq {pc : Pc} (h : Levels s L) (hn : s'.nodes = s.nodes) (hh : s'.head = s.head)
    (hm : s.maxHeight ≤ s'.maxHeight) (hmax : s'.maxHeight ≤ MAX_HEIGHT)
    (hlen : s'.len + pc.pending = s.len + c.pc.pending) (hpc : PcInv { c with pc := pc } s' L) :
    Stepped c s L s' pc L :=
  ⟨h.of_eq hn hh, .of_eq hn hm, hpc, hmax, by rw [hlen]⟩

theorem Ready.congr (hr : c.Ready s L level A) (hk : Kept s s') (pc : Pc) :
    Ready { c with pc := pc } s' L level A :=
  ⟨hr.linked, hr.lt, hk.maxHeight.symm ▸ hr.raised, hr.windows.congr hk.keyAt,
    fun he => hk.keyAt ▸ hr.fresh he⟩

/-- The successor in the arrays lies above the key. -/
theorem Ready.above (h : Levels s L) (hc : c.Inv s L) (hr : c.Ready s L level A) :
    ∀ b ∈ A.succs level, c.key < s.keyAt b := by
  intro b hb
  by_cases he : level = 0
  · subst he
    exact hr.fresh rfl b hb
  · -- the node is at level 0, where no other node has its key
    obtain ⟨hm, hle⟩ := (hr.windows level le_rfl hr.lt).notBelow b hb
    apply lt_of_le_of_ne hle
    intro hk
    have h0 : c.node ∈ L 0 := (hr.linked 0).mpr (Nat.pos_of_ne_zero he)
    have hbn : b = c.node := by
      apply eq_of_key (h.ascending 0) (h.subset_of_le (Nat.zero_le level) hm) h0
      rw [hc.keyAt, hk]
    exact lt_irrefl _ ((hr.linked level).mp (hbn ▸ hm))

theorem stepped_store (h : Levels s L) (hmax : s.maxHeight ≤ MAX_HEIGHT) (hc : c.Inv s L)
    (hpc : c.pc = .store level A) (hr : c.Ready s L level A) :
    ∃ s', s.setTower c.node level (A.succs level) = some s' ∧
      Stepped c s L s' (.swap level A) L := by
  have hlt : level < s.heightAt c.node := by rw [hc.heightAt]; exact hr.lt
  have hload : (s.load (some c.node) level).isSome := isSome_load_some hlt
  have hout : c.node ∉ L level := fun hm => lt_irrefl _ ((hr.linked level).mp hm)
  have hk := Kept.store s (some c.node) level (A.succs level)
  refine ⟨_, by rw [setTower, load_eq_next hload]; rfl, h.store_own hout hlt _, ?_, ?_, ?_, ?_⟩
  · refine ⟨fun b _ => hk.nodes b, fun _ => List.Subset.refl _, fun _ _ hb => .inl hb, ?_,
      hk.maxHeight.ge⟩
    intro l b hb _ _
    rw [next_store hload]
    split_ifs
    · simp [hb]
    · rfl
  · refine ⟨hr.congr hk _, ?_⟩
    show (s.store (some c.node) level (A.succs level)).next level (some c.node) = _
    rw [next_store hload, if_pos rfl, Function.update_self]
  · rw [hk.maxHeight]
    exact hmax
  · rw [hk.len, hpc]
    rfl

/-- An exchange that succeeds links the node. -/
theorem stepped_swap (h : Levels s L) (hmax : s.maxHeight ≤ MAX_HEIGHT) (hc : c.Inv s L)
    (hpc : c.pc = .swap level A) (hr : c.Ready s L level A)
    (hself : s.next level (some c.node) = A.succs level)
    (hnext : s.next level (A.preds level) = A.succs level) :
    ∃ L', Stepped c s L (s.store (A.preds level) level (some c.node))
      (if level = 0 then .addLen A else c.nextLevel level A) L' := by
  have hlt : level < s.heightAt c.node := by rw [hc.heightAt]; exact hr.lt
  have hl : level < MAX_HEIGHT := hr.lt.trans_le hc.le
  have hw := hr.windows level le_rfl hr.lt
  have hload : (s.load (A.preds level) level).isSome := h.isSome_load hl fun b hb => (hw.below b hb).1
  have hk := Kept.store s (A.preds level) level (some c.node)
  have hin : ∀ m, level = m + 1 → c.node ∈ L m := fun m hm => (hr.linked m).mpr (by omega)
  obtain ⟨xs, hL, hperm⟩ := h.link (a := c.node) hl (by rw [hc.keyAt]; exact hw.below)
    (by rw [hc.keyAt, hnext]; exact hr.above h hc) (hself.trans hnext.symm) hlt hin
  have hmem : ∀ b, b ∈ xs ↔ b = c.node ∨ b ∈ L level := fun b => by
    rw [hperm.mem_iff, List.mem_cons]
  have hgrown : Grown c.node s L (s.store (A.preds level) level (some c.node))
      (Function.update L level xs) := by
    refine ⟨fun b _ => hk.nodes b, fun l b hb => ?_, fun l b hb => ?_, fun l b hb hbl _ => ?_,
      hk.maxHeight.ge⟩
    · by_cases he : l = level
      · rw [he, Function.update_self, hmem]
        exact .inr (he ▸ hb)
      · rwa [Function.update_of_ne he]
    · by_cases he : l = level
      · rw [he, Function.update_self, hmem] at hb
        exact he ▸ hb.symm
      · rw [Function.update_of_ne he] at hb
        exact .inl hb
    · rw [next_store hload]
      split_ifs with he
      · have hne : some b ≠ A.preds level := fun heq => hbl (he ▸ (hw.below b heq.symm).1)
        rw [Function.update_of_ne hne]
      · rfl
  have hlinked : LinkedTo (Function.update L level xs) c.node (level + 1) := by
    intro l
    by_cases he : l = level
    · rw [he, Function.update_self, hmem]
      simp
    · rw [Function.update_of_ne he, hr.linked l]
      omega
  have hwin := hgrown.windows h (hr.windows.mono (Nat.le_succ level))
  refine ⟨_, hL, hgrown, ?_, by rw [hk.maxHeight]; exact hmax, ?_⟩
  · split_ifs with he
    · subst he
      exact ⟨hlinked, hr.raised.trans hk.maxHeight.ge, hwin⟩
    · exact pcInv_nextLevel hlinked hr.lt (hr.raised.trans hk.maxHeight.ge) hwin
  · have hlen := hperm.length_eq
    rw [hk.len, hpc]
    split_ifs with he
    · subst he
      rw [Function.update_self, hlen, List.length_cons]
      simp only [Pc.pending]
      omega
    · rw [Function.update_of_ne (Ne.symm he), pending_nextLevel]
      rfl

/-- Each step of a call keeps the chains in order, and what the call relies on. -/
theorem Inv.stepped [Layout] (hc : c.Inv s L) (h : Levels s L) (hlow : 0 < s.maxHeight)
    (hmax : s.maxHeight ≤ MAX_HEIGHT) (spurious : Bool) :
    ∃ s' pc L', c.step s spurious = (s', pc) ∧ Stepped c s L s' pc L' := by
  have hpc := hc.pc
  rw [PcInv] at hpc
  cases hp : c.pc with
  | loadHeight =>
      rw [hp] at hpc
      refine ⟨s, c.whileHigher s.maxHeight, L, by rw [step, hp],
        stepped_of_eq h rfl rfl le_rfl hmax ?_ (pcInv_whileHigher hpc hc.pos)⟩
      rw [hp, pending_whileHigher]
      rfl
  | raise observed =>
      rw [hp] at hpc
      by_cases hif : s.maxHeight = observed ∧ spurious = false
      · obtain ⟨hl, hlt⟩ := hpc
        obtain ⟨rfl, rfl⟩ := hif
        exact ⟨{ s with maxHeight := c.height }, .search 0 .empty, L, by simp [step, hp],
          stepped_of_eq h rfl rfl hlt.le hc.le (by rw [hp]; rfl) ⟨hl, hc.pos, le_rfl⟩⟩
      · refine ⟨s, c.whileHigher s.maxHeight, L, by simp [step, hp, hif],
          stepped_of_eq h rfl rfl le_rfl hmax ?_ (pcInv_whileHigher hpc.1 hc.pos)⟩
        rw [hp, pending_whileHigher]
        rfl
  | search level A =>
      rw [hp] at hpc
      obtain ⟨hl, hlt, hle⟩ := hpc
      obtain ⟨l, hm⟩ : ∃ l, s.maxHeight = l + 1 := Nat.exists_eq_succ_of_ne_zero hlow.ne'
      refine ⟨s, .find level A l none, L, by simp [step, hp, hm],
        stepped_of_eq h rfl rfl le_rfl hmax (by rw [hp]; rfl) ?_⟩
      refine ⟨hl, hlt, hle, by omega, (fun _ hb => nomatch hb), ?_⟩
      intro l' h₁ h₂
      have hlt' : l' < c.height := h₂
      omega
  | find level A l pred =>
      rw [hp] at hpc
      obtain ⟨hl, hlt, hh, hlm, hbelow, hw⟩ := hpc
      have hload := h.load_eq hlm fun b hb => (hbelow b hb).1
      refine ⟨s, c.loaded s level A l pred (s.next l pred), L, by simp [step, hp, hload],
        stepped_of_eq h rfl rfl le_rfl hmax ?_ (pcInv_loaded h hl hlt hh hlm hbelow hw)⟩
      rw [hp, pending_loaded]
      rfl
  | store level A =>
      rw [hp] at hpc
      obtain ⟨s', hset, hs'⟩ := stepped_store h hmax hc hp hpc
      exact ⟨s', .swap level A, L, by simp [step, hp, hset], hs'⟩
  | swap level A =>
      rw [hp] at hpc
      obtain ⟨hr, hself⟩ := hpc
      have hw := hr.windows level le_rfl hr.lt
      have hload := h.load_eq (hr.lt.trans_le hc.le) fun b hb => (hw.below b hb).1
      by_cases hn : s.next level (A.preds level) = A.succs level
      · obtain ⟨L', hs'⟩ := stepped_swap h hmax hc hp hr hself hn
        exact ⟨_, _, L', by simp [step, hp, compareExchange, hload, hn], hs'⟩
      · refine ⟨s, .search level A, L, by simp [step, hp, compareExchange, hload, hn],
          stepped_of_eq h rfl rfl le_rfl hmax (by rw [hp]; rfl) ⟨hr.linked, hr.lt, hr.raised⟩⟩
  | addLen A =>
      rw [hp] at hpc
      obtain ⟨hl, hh, hw⟩ := hpc
      exact ⟨{ s with len := s.len + 1 }, .addMem A, L, by rw [step, hp],
        stepped_of_eq h rfl rfl le_rfl hmax (by rw [hp]; rfl) ⟨hl, hh, hw.congr rfl⟩⟩
  | addMem A =>
      rw [hp] at hpc
      obtain ⟨hl, hh, hw⟩ := hpc
      refine ⟨{ s with memUsage := s.memUsage + s.heapSizeOf c.node }, c.nextLevel 0 A, L,
        by rw [step, hp],
        stepped_of_eq h rfl rfl le_rfl hmax ?_ (pcInv_nextLevel hl hc.pos hh (hw.congr rfl))⟩
      rw [hp, pending_nextLevel]
      rfl
  | done inserted =>
      rw [hp] at hpc
      refine ⟨s, .done inserted, L, by rw [step, hp],
        stepped_of_eq h rfl rfl le_rfl hmax (by rw [hp]) ?_⟩
      cases inserted <;> exact hpc
  | panicked =>
      rw [hp] at hpc
      exact hpc.elim

end Call

/-! ### Runs -/

/-- What holds of the list and the calls together. -/
structure Calls.Inv (st : Calls) (L : ℕ → List ℕ) : Prop where
  levels : Levels st.list L
  low : 0 < st.list.maxHeight
  high : st.list.maxHeight ≤ MAX_HEIGHT
  calls : ∀ c ∈ st.calls, c.Inv st.list L
  nodes : (st.calls.map Call.node).Nodup
  owned : ∀ a ∈ L 0, ∃ c ∈ st.calls, c.node = a
  len : st.list.len + (st.calls.map fun c => c.pc.pending).sum = (L 0).length

namespace Calls

theorem inv_start : Inv start fun _ => [] where
  levels := Levels.new
  low := by decide
  high := by decide
  calls _ h := absurd h List.not_mem_nil
  nodes := List.nodup_nil
  owned _ h := absurd h List.not_mem_nil
  len := rfl

variable {st st' : Calls}

theorem exists_set {α : Type} {xs : List α} {i : ℕ} {x : α} (h : xs[i]? = some x) :
    ∃ pre post, xs = pre ++ x :: post ∧ ∀ y, xs.set i y = pre ++ y :: post := by
  induction xs generalizing i with
  | nil => cases h
  | cons z zs ih =>
      cases i with
      | zero =>
          cases h
          exact ⟨[], zs, rfl, fun _ => rfl⟩
      | succ i =>
          obtain ⟨pre, post, rfl, hset⟩ := ih h
          exact ⟨z :: pre, post, rfl, fun y => congrArg (z :: ·) (hset y)⟩

theorem grown_alloc (s : SkipList) (L : ℕ → List ℕ) (key : Key) (value : Value) (height : ℕ) :
    Grown s.nodes.length s L (s.alloc key value height) L := by
  have hget : ∀ b < s.nodes.length, (s.alloc key value height).nodes[b]? = s.nodes[b]? :=
    fun b hb => List.getElem?_append_left hb
  refine ⟨fun b hb => by rw [hget b hb], fun _ => List.Subset.refl _, fun _ _ hb => .inl hb, ?_,
    le_rfl⟩
  intro l b _ _ hb
  simp only [SkipList.next, load, hget b hb]

theorem inv_call (h : st.Inv L) (key : Key) (value : Value) {height : ℕ} (h1 : 1 ≤ height)
    (hh : height ≤ MAX_HEIGHT) :
    Inv ⟨st.list.alloc key value height,
      st.calls ++ [⟨key, value, height, st.list.nodes.length, .loadHeight⟩]⟩ L := by
  have hgrown := grown_alloc st.list L key value height
  refine ⟨h.levels.alloc key value height, h.low, h.high, ?_, ?_, ?_, ?_⟩
  · intro c hc
    rcases List.mem_append.mp hc with hc | hc
    · exact (h.calls c hc).grown h.levels hgrown (h.calls c hc).lt_length.ne
    · rw [List.mem_singleton.mp hc]
      refine ⟨by simp [alloc, Node.alloc, Node.data, Node.entry], h1, hh, ?_⟩
      intro l
      refine ⟨fun hm => absurd (h.levels.lt_length hm) (lt_irrefl _), ?_⟩
      intro hl
      exact absurd hl (Nat.not_lt_zero l)
  · rw [List.map_append, List.nodup_append]
    refine ⟨h.nodes, List.nodup_singleton _, ?_⟩
    intro a ha b hb
    obtain ⟨c, hc, rfl⟩ := List.mem_map.mp ha
    rw [List.mem_singleton.mp hb]
    exact (h.calls c hc).lt_length.ne
  · intro a ha
    obtain ⟨c, hc, hn⟩ := h.owned a ha
    exact ⟨c, List.mem_append_left _ hc, hn⟩
  · rw [List.map_append, List.sum_append]
    exact h.len

/-- Every step keeps the invariant, and no chain loses a node or an entry. -/
theorem inv_step [Layout] (h : st.Inv L) {a : CallAct} (hs : st.step a = some st') :
    ∃ L', st'.Inv L' ∧ (∀ l, L l ⊆ L' l) ∧ ∀ b ∈ L 0, st'.list.entryOf b = st.list.entryOf b := by
  cases a with
  | call key value height =>
      rw [step] at hs
      split_ifs at hs with hif
      · cases hs
        exact ⟨L, inv_call h key value hif.1 hif.2, fun _ => List.Subset.refl _, fun b hb =>
          (grown_alloc st.list L key value height).entryOf (h.levels.lt_length hb)⟩
  | step i spurious =>
      rw [step] at hs
      obtain ⟨c, hc, hs⟩ := Option.bind_eq_some_iff.mp hs
      obtain ⟨pre, post, hcalls, hset⟩ := exists_set hc
      have hcm : c ∈ st.calls := List.mem_of_getElem? hc
      obtain ⟨s', pc, L', hstep, hst⟩ :=
        (h.calls c hcm).stepped h.levels h.low h.high spurious
      rw [hstep] at hs
      cases hs
      have hnd := h.nodes
      have hlen := h.len
      rw [hcalls, List.map_append, List.map_cons] at hnd hlen
      obtain ⟨hpre, hcons, hcross⟩ := List.nodup_append.mp hnd
      obtain ⟨hcpost, hpost⟩ := List.nodup_cons.mp hcons
      refine ⟨L', ⟨hst.levels, h.low.trans_le hst.grown.maxHeight, hst.high, fun d hd => ?_, ?_,
        fun b hb => ?_, ?_⟩, hst.grown.mono, fun b hb => hst.grown.entryOf (h.levels.lt_length hb)⟩
      · have hother : ∀ d ∈ st.calls, d.node ≠ c.node → d.Inv s' L' := fun d hd hne =>
          (h.calls d hd).grown h.levels hst.grown hne
        rw [hset] at hd
        rcases List.mem_append.mp hd with hd | hd
        · apply hother d (hcalls ▸ List.mem_append_left _ hd)
          exact hcross _ (List.mem_map_of_mem hd) _ List.mem_cons_self
        · rcases List.mem_cons.mp hd with rfl | hd
          · have hci := h.calls c hcm
            exact ⟨(hst.grown.nodes _ hci.lt_length).trans hci.data, hci.pos, hci.le, hst.inv⟩
          · apply hother d (hcalls ▸ List.mem_append_right _ (List.mem_cons_of_mem c hd))
            exact fun he => hcpost (he ▸ List.mem_map_of_mem hd)
      · rw [hset, List.map_append, List.map_cons]
        exact hnd
      · have hmem : ∀ d ∈ st.calls, ∃ d' ∈ st.calls.set i { c with pc := pc }, d'.node = d.node := by
          intro d hd
          rw [hset]
          rw [hcalls] at hd
          rcases List.mem_append.mp hd with hd | hd
          · exact ⟨d, List.mem_append_left _ hd, rfl⟩
          · rcases List.mem_cons.mp hd with rfl | hd
            · exact ⟨_, List.mem_append_right _ List.mem_cons_self, rfl⟩
            · exact ⟨d, List.mem_append_right _ (List.mem_cons_of_mem _ hd), rfl⟩
        rcases hst.grown.only 0 b hb with hb | rfl
        · obtain ⟨d, hd, rfl⟩ := h.owned b hb
          exact hmem d hd
        · exact hmem c hcm
      · have hl := hst.len
        rw [List.sum_append, List.sum_cons] at hlen
        rw [hset, List.map_append, List.map_cons, List.sum_append, List.sum_cons]
        simp only at hl hlen ⊢
        omega

theorem inv_run [Layout] (h : st.Inv L) {acts : List CallAct} (hr : st.run acts = some st') :
    ∃ L', st'.Inv L' ∧ (∀ l, L l ⊆ L' l) ∧ ∀ b ∈ L 0, st'.list.entryOf b = st.list.entryOf b := by
  induction acts generalizing st L with
  | nil =>
      cases hr
      exact ⟨L, h, fun _ => List.Subset.refl _, fun _ _ => rfl⟩
  | cons a acts ih =>
      rw [run, List.foldlM_cons] at hr
      obtain ⟨st₁, hs, hr⟩ := Option.bind_eq_some_iff.mp hr
      obtain ⟨L₁, h₁, hsub₁, he₁⟩ := inv_step h hs
      obtain ⟨L₂, h₂, hsub₂, he₂⟩ := ih h₁ hr
      refine ⟨L₂, h₂, fun l b hb => hsub₂ l (hsub₁ l hb), ?_⟩
      intro b hb
      rw [he₂ b (hsub₁ 0 hb), he₁ b hb]

/-- The chains of a state: finite, ascending, each a subsequence of the one below made of taller
nodes; and no call has indexed a tower out of bounds. -/
structure Sound (st : Calls) (L : ℕ → List ℕ) : Prop where
  chain : ∀ l < MAX_HEIGHT, Chain (st.list.next l) none (L l)
  ascending : (L 0).Pairwise fun a b => st.list.keyAt a < st.list.keyAt b
  sublist : ∀ l, (L (l + 1)).Sublist (L l)
  tall : ∀ l, ∀ a ∈ L l, l < st.list.heightAt a
  calls : ∀ c ∈ st.calls, c.pc ≠ .panicked

theorem Inv.sound (h : st.Inv L) : Sound st L := by
  refine ⟨h.levels.chain, h.levels.ascending 0, h.levels.sublist, h.levels.tall, ?_⟩
  intro c hc hp
  have hpc := (h.calls c hc).pc
  rw [Call.PcInv, hp] at hpc
  exact hpc

variable {c : Call}

theorem Inv.of_true (h : st.Inv L) (hc : c ∈ st.calls) (hp : c.pc.answer = some true) :
    c.node ∈ L 0 := by
  have hpc := (h.calls c hc).pc
  cases hd : c.pc with
  | done b =>
      rw [hd] at hp
      cases hp
      rw [Call.PcInv, hd] at hpc
      exact (hpc 0).mpr (h.calls c hc).pos
  | _ => simp [hd, Pc.answer] at hp

theorem Inv.of_false (h : st.Inv L) (hc : c ∈ st.calls) (hp : c.pc.answer = some false) :
    c.node ∉ L 0 ∧ ∃ b ∈ L 0, st.list.keyAt b = c.key := by
  have hpc := (h.calls c hc).pc
  cases hd : c.pc with
  | done b =>
      rw [hd] at hp
      cases hp
      rw [Call.PcInv, hd] at hpc
      exact ⟨fun hm => absurd ((hpc.1 0).mp hm) (lt_irrefl 0), hpc.2⟩
  | _ => simp [hd, Pc.answer] at hp

/-- When all calls have returned, the nodes of level 0 are those of the calls that returned true. -/
theorem Inv.exists_call (h : st.Inv L) (hdone : ∀ c ∈ st.calls, c.pc.answer.isSome)
    (ha : a ∈ L 0) : ∃ c ∈ st.calls, c.node = a ∧ c.pc.answer = some true := by
  obtain ⟨c, hc, rfl⟩ := h.owned a ha
  refine ⟨c, hc, rfl, ?_⟩
  obtain ⟨b, hb⟩ := Option.isSome_iff_exists.mp (hdone c hc)
  cases b with
  | true => exact hb
  | false => exact absurd ha (h.of_false hc hb).1

theorem Inv.exists_key (h : st.Inv L) (hdone : ∀ c ∈ st.calls, c.pc.answer.isSome)
    (hc : c ∈ st.calls) : ∃ a ∈ L 0, st.list.keyAt a = c.key := by
  obtain ⟨b, hb⟩ := Option.isSome_iff_exists.mp (hdone c hc)
  cases b with
  | true => exact ⟨c.node, h.of_true hc hb, (h.calls c hc).keyAt⟩
  | false => exact (h.of_false hc hb).2

/-- In every order of the steps the chains stay in order and lose no node; and when all calls have
returned, of the calls for one version exactly one returned true, its value is stored, and `len`
counts the versions. -/
theorem concurrent_inserts [Layout] {acts : List CallAct} (hr : start.run acts = some st) :
    ∃ L, Sound st L ∧
      (∀ acts' st', st.run acts' = some st' → ∃ L', Sound st' L' ∧ (∀ l, L l ⊆ L' l) ∧
        ∀ a ∈ L 0, st'.list.entryOf a = st.list.entryOf a) ∧
      ((∀ c ∈ st.calls, c.pc.answer.isSome) →
        (∀ d ∈ st.calls, ∃ pre c post, st.calls = pre ++ c :: post ∧ c.key = d.key ∧
          c.pc.answer = some true ∧ (c.key, c.value) ∈ (L 0).map st.list.entryOf ∧
          ∀ e ∈ pre ++ post, e.key = d.key → e.pc.answer = some false) ∧
        st.list.len = (st.calls.map Call.key).dedup.length) := by
  obtain ⟨L, h, -, -⟩ := inv_run inv_start hr
  refine ⟨L, h.sound, fun acts' st' hr' => ?_, fun hdone => ⟨fun d hd => ?_, ?_⟩⟩
  · obtain ⟨L', h', hsub, he⟩ := inv_run h hr'
    exact ⟨L', h'.sound, hsub, he⟩
  · obtain ⟨a, ha, hk⟩ := h.exists_key hdone hd
    obtain ⟨c, hc, rfl, ht⟩ := h.exists_call hdone ha
    have hck : c.key = d.key := (h.calls c hc).keyAt.symm.trans hk
    obtain ⟨pre, post, hcalls⟩ := List.append_of_mem hc
    refine ⟨pre, c, post, hcalls, hck, ht, ?_, ?_⟩
    · rw [← (h.calls c hc).entryOf]
      exact List.mem_map_of_mem ha
    · intro e he hek
      have hem : e ∈ st.calls := by
        rw [hcalls]
        rcases List.mem_append.mp he with he | he
        · exact List.mem_append_left _ he
        · exact List.mem_append_right _ (List.mem_cons_of_mem c he)
      obtain ⟨b, hb⟩ := Option.isSome_iff_exists.mp (hdone e hem)
      cases b with
      | false => exact hb
      | true =>
          -- two nodes of level 0 with one key
          have hnode : e.node = c.node := by
            apply eq_of_key h.sound.ascending (h.of_true hem hb) ha
            rw [(h.calls e hem).keyAt, (h.calls c hc).keyAt, hek, hck]
          have hnd := h.nodes
          rw [hcalls, List.map_append, List.map_cons, List.nodup_middle, List.nodup_cons,
            ← List.map_append] at hnd
          exact absurd (hnode ▸ List.mem_map_of_mem he) hnd.1
  · have hpend : (st.calls.map fun c => c.pc.pending) = st.calls.map fun _ => 0 := by
      apply List.map_congr_left
      intro c hc
      obtain ⟨b, hb⟩ := Option.isSome_iff_exists.mp (hdone c hc)
      cases hp : c.pc with
      | done b => rfl
      | _ => simp [hp, Pc.answer] at hb
    have hnd : ((L 0).map st.list.keyAt).Nodup :=
      List.pairwise_map.mpr (h.sound.ascending.imp fun hab => hab.ne)
    have hperm : ((L 0).map st.list.keyAt).Perm (st.calls.map Call.key).dedup := by
      apply (List.perm_ext_iff_of_nodup hnd (List.nodup_dedup _)).mpr
      intro k
      rw [List.mem_dedup, List.mem_map, List.mem_map]
      constructor
      · rintro ⟨a, ha, rfl⟩
        obtain ⟨c, hc, rfl, -⟩ := h.exists_call hdone ha
        exact ⟨c, hc, (h.calls c hc).keyAt.symm⟩
      · rintro ⟨c, hc, rfl⟩
        exact h.exists_key hdone hc
    have hlen := h.len
    rw [hpend, List.map_const', List.sum_replicate_nat, Nat.mul_zero, Nat.add_zero] at hlen
    rw [hlen, ← hperm.length_eq, List.length_map]

/-- Two calls for one version: the second one stops before its exchange, which fails when the first
one has returned. -/
def racing : List CallAct :=
  [.call ⟨.ascii [0x6b], 1⟩ (.set (.ascii [0x76])) 1, .call ⟨.ascii [0x6b], 1⟩ .delete 2] ++
    List.replicate 6 (.step 1 false) ++ List.replicate 8 (.step 0 false) ++
    List.replicate 4 (.step 1 false)

theorem concurrent_inserts_racing :
    ∃ st, @run ⟨64, 8⟩ start racing = some st ∧ st.list.len = 1 := by
  have hsome : ((@run ⟨64, 8⟩ start racing).map fun st =>
      st.calls.map fun c => c.pc.answer) = some [some true, some false] := by decide +kernel
  obtain ⟨st, hr, hans⟩ := Option.map_eq_some_iff.mp hsome
  have hkeys : ((@run ⟨64, 8⟩ start racing).map fun st => st.calls.map Call.key) =
      some [⟨.ascii [0x6b], 1⟩, ⟨.ascii [0x6b], 1⟩] := by decide +kernel
  rw [hr, Option.map_some, Option.some_inj] at hkeys
  obtain ⟨L, -, -, hdone⟩ := @concurrent_inserts st ⟨64, 8⟩ _ hr
  refine ⟨st, hr, (hdone ?_).2.trans ?_⟩
  · intro c hc
    have hm := List.mem_map_of_mem (f := fun c : Call => c.pc.answer) hc
    rw [hans] at hm
    simp only [List.mem_cons, List.not_mem_nil, or_false] at hm
    rcases hm with hm | hm <;> rw [hm] <;> rfl
  · rw [hkeys]
    decide

end Calls

end SkipList

end LowDB
