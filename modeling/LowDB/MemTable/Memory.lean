import LowDB.MemTable.Readers

/-! # The memory of the skip list

A node is freed in two places: `insert` frees its own node when it has found its version in the list,
and `Drop` frees the nodes of level 0.  Insertions and readers follow pointers meanwhile.

`freed` has the nodes of the first kind and `drop` returns those of the second.  No access goes to a
freed node, and together they free every allocation once (`memory_safe`).  The counters `len` and
`mem_usage` lag behind level 0 by the calls that have linked their node and not counted it yet
(`counters`). -/

namespace LowDB

open Chains

namespace SkipList

/-! ### What is freed and what is read -/

/-- The loop of `Drop` from `curr` on, at most `n` rounds: the nodes it frees. -/
def dropFrom (s : SkipList) : ℕ → Ptr → Option (List ℕ)
  | _, none => some []
  | 0, some _ => none
  | n + 1, some c => do
    let curr ← s.load (some c) 0
    let freed ← s.dropFrom n curr
    return c :: freed

def drop (s : SkipList) : Option (List ℕ) := (s.load none 0).bind (s.dropFrom s.nodes.length)

/-- The nodes freed by insertions: `drop(Box::from_raw(node))` before they return false. -/
def Calls.freed (st : Calls) : List ℕ :=
  (st.calls.filter fun c => c.pc.answer = some false).map Call.node

/-- The nodes that the next access of an insertion dereferences: in `find` the one whose slot it loads
and the one whose key it compares. -/
def Call.derefs (c : Call) (s : SkipList) : List ℕ :=
  match c.pc with
  | .search _ _ => [c.node]
  | .find _ _ l pred => pred.toList ++ (s.next l pred).toList
  | .store _ _ => [c.node]
  | .swap level A => (A.preds level).toList
  | .addLen _ => [c.node]
  | .addMem _ => [c.node]
  | _ => []

/-- The nodes that the next access of a reader dereferences. -/
def Reader.derefs (r : Reader) (s : SkipList) : List ℕ :=
  match r.pc with
  | .seek l pred => pred.toList ++ (s.next l pred).toList
  | .curr p => p.toList
  | _ => []

variable {s s' : SkipList} {L L' : ℕ → List ℕ} {a l n : ℕ} {p : Ptr} {xs : List ℕ} {c : Call}

theorem dropFrom_eq (h : Levels s L) (hc : Chain (s.next 0) p xs) (hxs : xs ⊆ L 0)
    (hn : xs.length ≤ n) : s.dropFrom n (s.next 0 p) = some xs := by
  induction xs generalizing p n with
  | nil =>
      have hnone : s.next 0 p = none := hc
      rw [hnone]
      cases n <;> rfl
  | cons c cs ih =>
      cases n with
      | zero => cases hn
      | succ n =>
          have hload : s.load (some c) 0 = some (s.next 0 (some c)) := by
            apply h.load_eq (by decide)
            rintro _ ⟨⟩
            exact hxs List.mem_cons_self
          have hrest := ih hc.2 (fun x hx => hxs (List.mem_cons_of_mem c hx))
            (Nat.le_of_succ_le_succ hn)
          simp only [hc.1, dropFrom, hload, hrest, Option.bind_eq_bind, Option.bind_some,
            Option.pure_def]

/-- `Drop` frees the nodes of level 0. -/
theorem Levels.drop_eq (h : Levels s L) : s.drop = some (L 0) := by
  rw [drop, h.load_eq (by decide) (by simp), Option.bind_some]
  exact dropFrom_eq h (h.chain 0 (by decide)) (List.Subset.refl _) (h.length_le 0)

/-! ### Every node belongs to one call -/

@[simp] theorem length_nodes_store (s : SkipList) (pred : Ptr) (level : ℕ) (p : Ptr) :
    (s.store pred level p).nodes.length = s.nodes.length := by
  cases pred <;> simp [store]

theorem setTower_eq {node level : ℕ} {p : Ptr} (h : s.setTower node level p = some s') :
    s' = s.store (some node) level p := by
  rw [setTower] at h
  obtain ⟨q, -, rfl⟩ := Option.map_eq_some_iff.mp h
  rfl

theorem compareExchange_eq {pred expected new : Ptr} {level : ℕ} {b : Bool}
    (h : s.compareExchange pred level expected new = some (b, s')) :
    s' = if b then s.store pred level new else s := by
  rw [compareExchange] at h
  obtain ⟨q, -, h⟩ := Option.bind_eq_some_iff.mp h
  split_ifs at h <;> cases h <;> rfl

/-- A call that has counted its node and not yet the size of it. -/
def Pc.unmeasured : Pc → ℕ
  | .addMem _ => 1
  | _ => 0

namespace Call

@[simp] theorem unmeasured_whileHigher (c : Call) (n : ℕ) : (c.whileHigher n).unmeasured = 0 := by
  unfold whileHigher
  split_ifs <;> rfl

@[simp] theorem unmeasured_found (c : Call) (s : SkipList) (level : ℕ) (A : Arrays) :
    (c.found s level A).unmeasured = 0 := by
  unfold found
  split_ifs <;> rfl

@[simp] theorem unmeasured_loaded (c : Call) (s : SkipList) (level : ℕ) (A : Arrays) (l : ℕ)
    (p q : Ptr) : (c.loaded s level A l p q).unmeasured = 0 := by
  unfold loaded
  split_ifs
  · rfl
  · cases l with
    | zero => exact unmeasured_found ..
    | succ l => rfl

@[simp] theorem unmeasured_nextLevel (c : Call) (level : ℕ) (A : Arrays) :
    (c.nextLevel level A).unmeasured = 0 := by
  unfold nextLevel
  split_ifs <;> rfl

/-- What an access does to the counters; it allocates nothing. -/
structure Counts [Layout] (c : Call) (s s' : SkipList) (pc : Pc) : Prop where
  nodes : s'.nodes.length = s.nodes.length
  len : s'.len = s.len + c.pc.pending
  memUsage : s'.memUsage = s.memUsage + c.pc.unmeasured * s.heapSizeOf c.node
  pc : pc.unmeasured = c.pc.pending

/-- An access that changes towers only. -/
theorem Counts.of_kept [Layout] {pc : Pc} (hn : s'.nodes.length = s.nodes.length)
    (hk : Kept s s') (hp : c.pc.pending = 0) (hm : c.pc.unmeasured = 0) (hpc : pc.unmeasured = 0) :
    Counts c s s' pc where
  nodes := hn
  len := by rw [hk.len, hp, Nat.add_zero]
  memUsage := by rw [hk.memUsage, hm, Nat.zero_mul, Nat.add_zero]
  pc := by rw [hpc, hp]

theorem Counts.refl [Layout] {pc : Pc} (hp : c.pc.pending = 0) (hm : c.pc.unmeasured = 0)
    (hpc : pc.unmeasured = 0) : Counts c s s pc where
  nodes := rfl
  len := by rw [hp, Nat.add_zero]
  memUsage := by rw [hm, Nat.zero_mul, Nat.add_zero]
  pc := by rw [hpc, hp]

theorem counts [Layout] (c : Call) (s : SkipList) (spurious : Bool) :
    Counts c s (c.step s spurious).1 (c.step s spurious).2 := by
  cases hp : c.pc with
  | loadHeight =>
      rw [step, hp]
      exact .refl (by rw [hp]; rfl) (by rw [hp]; rfl) (unmeasured_whileHigher ..)
  | raise observed =>
      simp only [step, hp]
      split_ifs
      · exact ⟨rfl, by rw [hp]; rfl, by rw [hp]; simp [Pc.unmeasured], by rw [hp]; rfl⟩
      · exact .refl (by rw [hp]; rfl) (by rw [hp]; rfl) (unmeasured_whileHigher ..)
  | search level A =>
      simp only [step, hp]
      split
      · exact .refl (by rw [hp]; rfl) (by rw [hp]; rfl) (unmeasured_found ..)
      · exact .refl (by rw [hp]; rfl) (by rw [hp]; rfl) rfl
  | find level A l pred =>
      simp only [step, hp]
      split
      · exact .refl (by rw [hp]; rfl) (by rw [hp]; rfl) rfl
      · exact .refl (by rw [hp]; rfl) (by rw [hp]; rfl) (unmeasured_loaded ..)
  | store level A =>
      simp only [step, hp]
      split
      · exact .refl (by rw [hp]; rfl) (by rw [hp]; rfl) rfl
      · rename_i s' hset
        rw [setTower_eq hset]
        exact .of_kept (length_nodes_store ..) (Kept.store s (some c.node) level (A.succs level))
          (by rw [hp]; rfl) (by rw [hp]; rfl) rfl
  | swap level A =>
      simp only [step, hp]
      split
      · exact .refl (by rw [hp]; rfl) (by rw [hp]; rfl) rfl
      · rename_i s' hswap
        rw [compareExchange_eq hswap, if_pos rfl]
        refine .of_kept (length_nodes_store ..) (Kept.store s (A.preds level) level (some c.node))
          (by rw [hp]; rfl) (by rw [hp]; rfl) ?_
        dsimp only
        split_ifs
        · rfl
        · exact unmeasured_nextLevel ..
      · rename_i s' hswap
        rw [compareExchange_eq hswap, if_neg Bool.false_ne_true]
        exact .refl (by rw [hp]; rfl) (by rw [hp]; rfl) rfl
  | addLen A =>
      simp only [step, hp]
      exact ⟨rfl, by rw [hp]; rfl, by rw [hp]; simp [Pc.unmeasured], by rw [hp]; rfl⟩
  | addMem A =>
      simp only [step, hp]
      refine ⟨rfl, by rw [hp]; rfl, by rw [hp]; simp [Pc.unmeasured], ?_⟩
      rw [hp]
      exact unmeasured_nextLevel ..
  | done b =>
      rw [step, hp]
      exact .refl (by rw [hp]; rfl) (by rw [hp]; rfl) rfl
  | panicked =>
      rw [step, hp]
      exact .refl (by rw [hp]; rfl) (by rw [hp]; rfl) rfl

end Call

/-! ### The counters over a run -/

theorem Grown.heapSizeOf [Layout] (g : Grown a s L s' L') {b : ℕ} (hb : b < s.nodes.length) :
    s'.heapSizeOf b = s.heapSizeOf b := by
  have hd := congrArg (Option.map fun d : Entry × ℕ => Layout.node + d.1.1.heapSize +
    d.1.2.heapSize + d.2 * Layout.pointer) (g.nodes b hb)
  rw [Option.map_map, Option.map_map] at hd
  exact congrArg (fun o => o.getD 0) hd

namespace Calls

variable {st st' : Calls}

/-- The calls have allocated the nodes, one each, and what `mem_usage` lacks of level 0 are the nodes
of calls between their exchange at level 0 and its update. -/
structure Counted [Layout] (st : Calls) (L : ℕ → List ℕ) : Prop where
  nodes : st.calls.map Call.node = List.range st.list.nodes.length
  memUsage : st.list.memUsage +
      (st.calls.map fun c => (c.pc.pending + c.pc.unmeasured) * st.list.heapSizeOf c.node).sum =
    ((L 0).map st.list.heapSizeOf).sum

theorem counted_start [Layout] : Counted start fun _ => [] := ⟨rfl, rfl⟩

theorem counted_call [Layout] (h : st.Inv L) (hc : st.Counted L) (key : Key) (value : Value)
    (height : ℕ) :
    Counted ⟨st.list.alloc key value height,
      st.calls ++ [⟨key, value, height, st.list.nodes.length, .loadHeight⟩]⟩ L := by
  have hg := grown_alloc st.list L key value height
  have hcalls : (st.calls.map fun c => (c.pc.pending + c.pc.unmeasured) *
      (st.list.alloc key value height).heapSizeOf c.node) =
      st.calls.map fun c => (c.pc.pending + c.pc.unmeasured) * st.list.heapSizeOf c.node :=
    List.map_congr_left fun c hcm => by rw [hg.heapSizeOf (h.calls c hcm).lt_length]
  have hlevel : (L 0).map (st.list.alloc key value height).heapSizeOf =
      (L 0).map st.list.heapSizeOf :=
    List.map_congr_left fun b hb => hg.heapSizeOf (h.levels.lt_length hb)
  constructor
  · rw [List.map_append, hc.nodes]
    simp [alloc, List.range_succ]
  · rw [List.map_append, List.sum_append, hcalls, hlevel, ← hc.memUsage]
    simp [alloc, Pc.pending, Pc.unmeasured]

/-- One access of the call `c`, which is the only one whose part of the sum changes. -/
theorem counted_set [Layout] (h : st.Inv L) (hc : st.Counted L) {i : ℕ} {pc : Pc}
    (hi : st.calls[i]? = some c) (hst : Stepped c st.list L s' pc L')
    (hcount : Call.Counts c st.list s' pc) :
    Counted ⟨s', st.calls.set i { c with pc := pc }⟩ L' := by
  obtain ⟨pre, post, hcalls, hset⟩ := exists_set hi
  have hg := hst.grown
  have hcm : c ∈ st.calls := List.mem_of_getElem? hi
  have hsize : ∀ d ∈ st.calls, s'.heapSizeOf d.node = st.list.heapSizeOf d.node := fun d hd =>
    hg.heapSizeOf (h.calls d hd).lt_length
  have hpart : ∀ ds : List Call, ds ⊆ st.calls →
      (ds.map fun d => (d.pc.pending + d.pc.unmeasured) * s'.heapSizeOf d.node) =
        ds.map fun d => (d.pc.pending + d.pc.unmeasured) * st.list.heapSizeOf d.node := fun ds hds =>
    List.map_congr_left fun d hd => by rw [hsize d (hds hd)]
  -- level 0 has grown by the node if the call has to count it now
  have hlevel : ((L' 0).map s'.heapSizeOf).sum =
      ((L 0).map st.list.heapSizeOf).sum + pc.pending * st.list.heapSizeOf c.node := by
    have hold : (L 0).map s'.heapSizeOf = (L 0).map st.list.heapSizeOf :=
      List.map_congr_left fun b hb => hg.heapSizeOf (h.levels.lt_length hb)
    have hlen := hst.len
    rw [hcount.len] at hlen
    rcases hg.level0 h.levels hst.levels with ⟨-, heq⟩ | ⟨-, -, hperm⟩
    · have hp : pc.pending = 0 := by
        rw [heq] at hlen
        omega
      rw [heq, hold, hp, Nat.zero_mul, Nat.add_zero]
    · have hp : pc.pending = 1 := by
        rw [hperm.length_eq, List.length_cons] at hlen
        omega
      rw [(hperm.map s'.heapSizeOf).sum_nat, List.map_cons, List.sum_cons, hold, hp, hsize c hcm,
        Nat.one_mul, Nat.add_comm]
  constructor
  · rw [hset, List.map_append, List.map_cons]
    show _ = List.range s'.nodes.length
    rw [hcount.nodes, ← hc.nodes, hcalls, List.map_append, List.map_cons]
  · have hmem := hc.memUsage
    rw [hcalls, List.map_append, List.map_cons, List.sum_append, List.sum_cons] at hmem
    show s'.memUsage + ((st.calls.set i { c with pc := pc }).map fun d =>
      (d.pc.pending + d.pc.unmeasured) * s'.heapSizeOf d.node).sum = _
    rw [hset, List.map_append, List.map_cons, List.sum_append, List.sum_cons, hlevel,
      hpart pre (hcalls ▸ List.subset_append_left ..),
      hpart post (fun d hd => hcalls ▸ List.mem_append_right _ (List.mem_cons_of_mem c hd)),
      hsize c hcm, hcount.memUsage, hcount.pc, ← hmem]
    ring

theorem counted_run [Layout] (h : st.Inv L) (hc : st.Counted L) {acts : List CallAct}
    (hr : st.run acts = some st') : ∃ L', st'.Inv L' ∧ st'.Counted L' := by
  induction acts generalizing st L with
  | nil =>
      cases hr
      exact ⟨L, h, hc⟩
  | cons a acts ih =>
      rw [run, List.foldlM_cons] at hr
      obtain ⟨st₁, hs, hr⟩ := Option.bind_eq_some_iff.mp hr
      cases a with
      | call key value height =>
          rw [step] at hs
          split_ifs at hs with hif
          cases hs
          exact ih (inv_call h key value hif.1 hif.2) (counted_call h hc key value height) hr
      | step i spurious =>
          obtain ⟨c, s', pc, L', hi, hstep, rfl, hst, hinv⟩ := h.stepped hs
          have hcount := c.counts st.list spurious
          rw [hstep] at hcount
          exact ih hinv (counted_set h hc hi hst hcount) hr

end Calls

/-! ### Every access goes to a live node -/

namespace Calls

variable {st : Calls}

theorem mem_freed : a ∈ st.freed ↔ ∃ c ∈ st.calls, c.pc.answer = some false ∧ c.node = a := by
  simp only [freed, List.mem_map, List.mem_filter, decide_eq_true_eq, and_assoc]

/-- A freed node is not in the list. -/
theorem Inv.notMem_of_freed (h : st.Inv L) (ha : a ∈ st.freed) : a ∉ L 0 := by
  obtain ⟨c, hc, hans, rfl⟩ := mem_freed.mp ha
  exact (h.of_false hc hans).1

/-- The node of a call is not freed before the call returns. -/
theorem Inv.own_notMem_freed (h : st.Inv L) (hc : c ∈ st.calls) (hans : c.pc.answer = none) :
    c.node ∉ st.freed := by
  intro ha
  obtain ⟨d, hd, hdans, hn⟩ := mem_freed.mp ha
  rw [List.inj_on_of_nodup_map h.nodes hd hc hn, hans] at hdans
  cases hdans

theorem Inv.nodup_freed (h : st.Inv L) : (st.freed ++ L 0).Nodup := by
  refine List.nodup_append.mpr
    ⟨h.nodes.sublist (List.filter_sublist.map _), nodup_of_ascending (h.levels.ascending 0), ?_⟩
  intro a ha b hb he
  exact h.notMem_of_freed ha (he ▸ hb)

/-- The nodes that an insertion is about to dereference are in the list, or its own. -/
theorem Inv.derefs (h : st.Inv L) (hc : c ∈ st.calls) (ha : a ∈ c.derefs st.list) :
    a ∈ L 0 ∨ a = c.node ∧ c.pc.answer = none := by
  have hpc := (h.calls c hc).pc
  rw [Call.PcInv] at hpc
  unfold Call.derefs at ha
  cases hp : c.pc with
  | find level A l pred =>
      rw [hp] at ha hpc
      obtain ⟨-, -, -, hl, hbelow, -⟩ := hpc
      have hin : ∀ b ∈ pred, b ∈ L l := fun b hb => (hbelow b hb).1
      left
      apply h.levels.subset_of_le (Nat.zero_le l)
      rcases List.mem_append.mp ha with ha | ha
      · exact hin a (Option.mem_toList.mp ha)
      · exact (h.levels.chain l hl).mem_of_next hin (Option.mem_toList.mp ha)
  | swap level A =>
      rw [hp] at ha hpc
      have hw := hpc.1.windows level le_rfl hpc.1.lt
      left
      apply h.levels.subset_of_le (Nat.zero_le level)
      exact (hw.below a (Option.mem_toList.mp ha)).1
  | search level A =>
      rw [hp] at ha
      exact .inr ⟨List.mem_singleton.mp ha, rfl⟩
  | store level A =>
      rw [hp] at ha
      exact .inr ⟨List.mem_singleton.mp ha, rfl⟩
  | addLen A =>
      rw [hp] at ha
      exact .inr ⟨List.mem_singleton.mp ha, rfl⟩
  | addMem A =>
      rw [hp] at ha
      exact .inr ⟨List.mem_singleton.mp ha, rfl⟩
  | _ =>
      rw [hp] at ha
      cases ha

end Calls

/-- The nodes that a reader is about to dereference are in the list. -/
theorem Reader.Inv.derefs {r : Reader} (hr : r.Inv s L) (h : Levels s L) (ha : a ∈ r.derefs s) :
    a ∈ L 0 := by
  rw [Inv] at hr
  unfold Reader.derefs at ha
  cases hp : r.pc with
  | seek l pred =>
      rw [hp] at ha hr
      obtain ⟨hl, hbelow⟩ := hr
      have hin : ∀ b ∈ pred, b ∈ L l := fun b hb => (hbelow b hb).1
      apply h.subset_of_le (Nat.zero_le l)
      rcases List.mem_append.mp ha with ha | ha
      · exact hin a (Option.mem_toList.mp ha)
      · exact (h.chain l hl).mem_of_next hin (Option.mem_toList.mp ha)
  | curr p =>
      rw [hp] at ha hr
      exact hr a (Option.mem_toList.mp ha)
  | _ =>
      rw [hp] at ha
      cases ha

namespace Shared

variable {st st' : Shared}

/-- The insertions of a run with readers are a run of insertions. -/
theorem run_inserts [Layout] {acts : List SharedAct} (hr : st.run acts = some st') :
    ∃ calls, st.inserts.run calls = some st'.inserts := by
  induction acts generalizing st with
  | nil =>
      cases hr
      exact ⟨[], rfl⟩
  | cons a acts ih =>
      rw [run, List.foldlM_cons] at hr
      obtain ⟨st₁, hs, hr⟩ := Option.bind_eq_some_iff.mp hr
      obtain ⟨calls, hcalls⟩ := ih hr
      cases a with
      | insert a =>
          rw [step] at hs
          obtain ⟨inserts, hi, hs⟩ := Option.bind_eq_some_iff.mp hs
          cases hs
          exact ⟨a :: calls, by rw [Calls.run, List.foldlM_cons, hi]; exact hcalls⟩
      | read op =>
          cases hs
          exact ⟨calls, hcalls⟩
      | next j =>
          rw [step] at hs
          obtain ⟨r, -, hs⟩ := Option.bind_eq_some_iff.mp hs
          cases hs
          exact ⟨calls, hcalls⟩

/-- In every order of the accesses: what is dereferenced is allocated and not freed, a node of the
list is never freed by an insertion, and when all insertions have returned and `Drop` runs, every
allocation has been freed exactly once. -/
theorem memory_safe [Layout] {acts : List SharedAct} (hr : start.run acts = some st) :
    ∃ linked, st.inserts.list.drop = some linked ∧ (st.inserts.freed ++ linked).Nodup ∧
      (∀ c ∈ st.inserts.calls, ∀ a ∈ c.derefs st.inserts.list,
        a < st.inserts.list.nodes.length ∧ a ∉ st.inserts.freed) ∧
      (∀ r ∈ st.readers, ∀ a ∈ r.derefs st.inserts.list,
        a < st.inserts.list.nodes.length ∧ a ∉ st.inserts.freed) ∧
      ((∀ c ∈ st.inserts.calls, c.pc.answer.isSome) →
        (st.inserts.freed ++ linked).Perm (List.range st.inserts.list.nodes.length)) := by
  obtain ⟨L, order, h⟩ := inv_run inv_start hr
  obtain ⟨calls, hcalls⟩ := run_inserts hr
  obtain ⟨L', -, hcount⟩ := Calls.counted_run Calls.inv_start Calls.counted_start hcalls
  have hi := h.inserts
  have hlive : ∀ a ∈ L 0, a < st.inserts.list.nodes.length ∧ a ∉ st.inserts.freed := fun a ha =>
    ⟨hi.levels.lt_length ha, fun hf => hi.notMem_of_freed hf ha⟩
  refine ⟨L 0, hi.levels.drop_eq, hi.nodup_freed, fun c hc a ha => ?_, fun r hr a ha => ?_,
    fun hdone => ?_⟩
  · rcases hi.derefs hc ha with ha | ⟨rfl, hans⟩
    · exact hlive a ha
    · exact ⟨(hi.calls c hc).lt_length, hi.own_notMem_freed hc hans⟩
  · exact hlive a ((h.readers r hr).derefs hi.levels ha)
  · apply (List.perm_ext_iff_of_nodup hi.nodup_freed List.nodup_range).mpr
    intro a
    rw [← hcount.nodes, List.mem_append, List.mem_map]
    constructor
    · rintro (ha | ha)
      · obtain ⟨c, hc, -, rfl⟩ := Calls.mem_freed.mp ha
        exact ⟨c, hc, rfl⟩
      · exact hi.owned a ha
    · rintro ⟨c, hc, rfl⟩
      obtain ⟨b, hb⟩ := Option.isSome_iff_exists.mp (hdone c hc)
      cases b with
      | true => exact .inr (hi.of_true hc hb)
      | false => exact .inl (Calls.mem_freed.mpr ⟨c, hc, hb, rfl⟩)

/-- Two insertions of one version: the second one frees its node. -/
theorem memory_safe_racing :
    ∃ st linked, @run ⟨64, 8⟩ start (Calls.racing.map .insert) = some st ∧
      st.inserts.freed = [1] ∧ st.inserts.list.drop = some linked ∧
      (1 :: linked).Perm (List.range 2) := by
  have hans : ((@run ⟨64, 8⟩ start (Calls.racing.map .insert)).map fun st =>
      (st.inserts.calls.all fun c => c.pc.answer.isSome, st.inserts.freed,
        st.inserts.list.nodes.length)) = some (true, [1], 2) := by decide +kernel
  obtain ⟨st, hr, hans⟩ := Option.map_eq_some_iff.mp hans
  rw [Prod.mk.injEq, Prod.mk.injEq] at hans
  obtain ⟨hdone, hfreed, hlen⟩ := hans
  obtain ⟨linked, hdrop, -, -, -, hperm⟩ := @memory_safe st ⟨64, 8⟩ _ hr
  have hperm := hperm (List.all_eq_true.mp hdone)
  rw [hfreed, hlen] at hperm
  exact ⟨st, linked, hr, hfreed, hdrop, hperm⟩

/-- `len` and `mem_usage` are below the number and the size of the nodes of level 0 by exactly the
nodes of the calls between their exchange and their update of the counter. -/
theorem counters [Layout] {acts : List SharedAct} (hr : start.run acts = some st) :
    ∃ nodes, st.inserts.list.level0 = some nodes ∧
      st.inserts.list.len + (st.inserts.calls.map fun c => c.pc.pending).sum = nodes.length ∧
      st.inserts.list.memUsage + (st.inserts.calls.map fun c => (c.pc.pending + c.pc.unmeasured) *
        st.inserts.list.heapSizeOf c.node).sum = (nodes.map Node.heapSize).sum := by
  obtain ⟨calls, hcalls⟩ := run_inserts hr
  obtain ⟨L, hi, hcount⟩ := Calls.counted_run Calls.inv_start Calls.counted_start hcalls
  obtain ⟨nodes, hn, hmap⟩ := iterNodes_eq hi.levels (hi.levels.chain 0 (by decide))
    (List.Subset.refl _) (hi.levels.length_le 0)
  have hsize := congrArg (List.map fun o => (o.map Node.heapSize).getD 0) hmap
  have hlen := congrArg List.length hmap
  rw [List.map_map, List.map_map] at hsize
  rw [List.length_map, List.length_map] at hlen
  refine ⟨nodes, ?_, hi.len.trans hlen, hcount.memUsage.trans (congrArg List.sum hsize)⟩
  rw [level0, hi.levels.load_eq (by decide) (by simp)]
  exact hn

/-- A node is in the list, and neither counter has it yet. -/
theorem counters_linked :
    ∃ st nodes, @run ⟨64, 8⟩ start (.insert (.call ⟨.ascii [0x6b], 1⟩ .delete 2) ::
        List.replicate 7 (.insert (.step 0 false))) = some st ∧
      st.inserts.list.level0 = some nodes ∧ st.inserts.list.len = 0 ∧ nodes.length = 1 := by
  have hans : ((@run ⟨64, 8⟩ start (.insert (.call ⟨.ascii [0x6b], 1⟩ .delete 2) ::
      List.replicate 7 (.insert (.step 0 false)))).map fun st =>
        (st.inserts.list.len, (st.inserts.calls.map fun c => c.pc.pending).sum)) =
      some (0, 1) := by decide +kernel
  obtain ⟨st, hr, hans⟩ := Option.map_eq_some_iff.mp hans
  rw [Prod.mk.injEq] at hans
  obtain ⟨hlen, hpend⟩ := hans
  obtain ⟨nodes, hn, hcount, -⟩ := @counters st ⟨64, 8⟩ _ hr
  rw [hlen, hpend] at hcount
  exact ⟨st, nodes, hr, hn, hlen, hcount.symm⟩

end Shared

end SkipList

end LowDB
