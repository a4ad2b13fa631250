import LowDB.Lib.Linearizable
import LowDB.MemTable.Concurrent

/-! # Lookups and iterators beside insertions

`get_entry_at`, `iter` and `iter_from` take no lock: a reader loads one pointer after the other while
insertions link nodes in.  A reader relies on less than an insertion does: the node it stands at is in
the level it reads and below its bound, or is the node that an iterator yields next (`Reader.Inv`).

The history of a run has the calls and the returns of `insert` and of `get_entry_at`.  An insertion
takes effect at the exchange at level 0, or at the load that has found its version there already; a
lookup at its last load.  In the order of these steps the list answers like one sorted list of entries
(`linearizable`). -/

namespace LowDB

open Chains Atomic

namespace SkipList

/-! ### Readers -/

inductive ReadOp where
  | getEntryAt (key : Str) (snapshot : UInt64)
  | iter
  | iterFrom (key : Str) (seq : UInt64)
deriving DecidableEq

/-- The next atomic access of a reader; `curr` is the field of `Iter`. -/
inductive ReadPc where
  | loadHeight
  | seek (level : ℕ) (pred : Ptr)
  | loadHead
  | curr (p : Ptr)
  | done (answer : Option Entry)
  | panicked

/-- A reader, and what its iterator has yielded. -/
structure Reader where
  op : ReadOp
  pc : ReadPc
  seen : List Entry

namespace ReadOp

/-- What `seek` searches for. -/
def bound : ReadOp → Key
  | .getEntryAt key snapshot => ⟨key, snapshot⟩
  | .iter => ⟨.empty, 0⟩
  | .iterFrom key seq => ⟨key, seq⟩

def start : ReadOp → ReadPc
  | .iter => .loadHead
  | _ => .loadHeight

end ReadOp

namespace Reader

/-- `seek` has returned `curr`. -/
def sought (r : Reader) (s : SkipList) (curr : Ptr) : ReadPc :=
  match r.op with
  | .getEntryAt key _ =>
    match curr with
    | none => .done none
    | some c =>
      match s.nodes[c]? with
      | none => .panicked
      | some node => .done (if node.key.user = key then some node.entry else none)
  | _ => .curr curr

/-- `seek` has loaded `curr` behind `pred`. -/
def loaded (r : Reader) (s : SkipList) (level : ℕ) (pred curr : Ptr) : ReadPc :=
  if curr.any fun n => s.keyAt n < r.op.bound then .seek level curr
  else
    match level with
    | 0 => r.sought s curr
    | level + 1 => .seek level pred

/-- One atomic access; at `curr` it is that of `Iter::next`. -/
def step (r : Reader) (s : SkipList) : Reader :=
  match r.pc with
  | .loadHeight =>
    match s.maxHeight with
    | 0 => { r with pc := r.sought s none }
    | level + 1 => { r with pc := .seek level none }
  | .seek level pred =>
    match s.load pred level with
    | none => { r with pc := .panicked }
    | some curr => { r with pc := r.loaded s level pred curr }
  | .loadHead =>
    match s.load none 0 with
    | none => { r with pc := .panicked }
    | some curr => { r with pc := .curr curr }
  | .curr none => r
  | .curr (some c) =>
    match s.nodes[c]?, s.load (some c) 0 with
    | none, _ => { r with pc := .panicked }
    | some _, none => { r with pc := .panicked }
    | some node, some curr => { r with pc := .curr curr, seen := r.seen ++ [node.entry] }
  | .done _ => r
  | .panicked => r

end Reader

/-- What a lookup has returned. -/
def ReadPc.answer : ReadPc → Option (Option Entry)
  | .done answer => some answer
  | _ => none

/-! ### The list with its callers -/

/-- The operations with one answer. -/
inductive ListOp where
  | insert (key : Key) (value : Value)
  | getEntryAt (key : Str) (snapshot : UInt64)

inductive ListAnswer where
  | inserted (new : Bool)
  | entry (e : Option Entry)
deriving DecidableEq

/-- The list as one client sees it: a sorted list of entries. -/
def sortedEntries : Object (List Entry) ListOp ListAnswer where
  init := []
  apply op es :=
    match op with
    | .insert key value => (.inserted (decide (∀ e ∈ es, e.1 ≠ key)), insertEntry (key, value) es)
    | .getEntryAt key snapshot => (.entry (entryAt es key snapshot.toNat), es)

theorem apply_insert_new {es : List Entry} {key : Key} (h : ∀ e ∈ es, e.1 ≠ key) (value : Value) :
    sortedEntries.apply (.insert key value) es = (.inserted true, insertEntry (key, value) es) :=
  congrArg (fun b => (ListAnswer.inserted b, insertEntry (key, value) es)) (decide_eq_true h)

theorem apply_insert_duplicate {es : List Entry} (hs : Sorted es) {x : Entry} (hx : x ∈ es)
    (value : Value) : sortedEntries.apply (.insert x.1 value) es = (.inserted false, es) := by
  have hd : ¬ ∀ e ∈ es, e.1 ≠ x.1 := fun hall => hall x hx rfl
  have he : insertEntry (x.1, value) es = es := insertEntry_of_mem hs hx rfl
  calc sortedEntries.apply (.insert x.1 value) es
      = (.inserted (decide (∀ e ∈ es, e.1 ≠ x.1)), insertEntry (x.1, value) es) := rfl
    _ = (.inserted false, es) := by rw [decide_eq_false hd, he]

/-- The insertions by their number, the readers by theirs. -/
abbrev OpId := ℕ ⊕ ℕ

/-- The list with its insertions and readers; `history` records calls and returns. -/
structure Shared where
  inserts : Calls
  readers : List Reader
  history : List (Event OpId ListOp ListAnswer)

inductive SharedAct where
  | insert (a : CallAct)
  | read (op : ReadOp)
  | next (j : ℕ)

/-- The answer of a call that had none before. -/
def newAnswer {α : Type} (before after : Option α) : List α :=
  if before.isNone then after.toList else []

/-- The events of a step of the insertions. -/
def CallAct.events (st st' : Calls) : CallAct → List (Event OpId ListOp ListAnswer)
  | .call key value _ => [.call (.inl st.calls.length) (.insert key value)]
  | .step i _ =>
    (newAnswer (st.calls[i]?.bind fun c => c.pc.answer) (st'.calls[i]?.bind fun c => c.pc.answer)).map
      fun b => .ret (.inl i) (.inserted b)

def ReadOp.events (op : ReadOp) (j : ℕ) : List (Event OpId ListOp ListAnswer) :=
  match op with
  | .getEntryAt key snapshot => [.call (.inr j) (.getEntryAt key snapshot)]
  | _ => []

namespace Shared

def start : Shared := ⟨.start, [], []⟩

def step [Layout] (st : Shared) : SharedAct → Option Shared
  | .insert a => do
    let inserts ← st.inserts.step a
    return ⟨inserts, st.readers, st.history ++ a.events st.inserts inserts⟩
  | .read op =>
    some ⟨st.inserts, st.readers ++ [⟨op, op.start, []⟩],
      st.history ++ op.events st.readers.length⟩
  | .next j => do
    let r ← st.readers[j]?
    let r' := r.step st.inserts.list
    return ⟨st.inserts, st.readers.set j r',
      st.history ++ (newAnswer r.pc.answer r'.pc.answer).map fun e => .ret (.inr j) (.entry e)⟩

def run [Layout] (st : Shared) (acts : List SharedAct) : Option Shared := acts.foldlM step st

end Shared

/-! ### What a reader can rely on -/

variable {s s' : SkipList} {L L' : ℕ → List ℕ} {a l : ℕ} {p : Ptr} {r : Reader}

/-- The entries of level 0. -/
def entriesOf (s : SkipList) (L : ℕ → List ℕ) : List Entry := (L 0).map s.entryOf

theorem Levels.sorted (h : Levels s L) : Sorted (s.entriesOf L) := by
  apply List.pairwise_map.mpr
  apply (h.ascending 0).imp
  intro a b hab
  rwa [fst_entryOf, fst_entryOf]

/-- The link between two neighbours of level 0 gives the answer of a lookup whose bound lies between
them. -/
theorem Levels.entryAt_eq (h : Levels s L) {u : Str} {n : UInt64}
    (hp : Below s.keyAt (L 0) ⟨u, n⟩ p) (hq : ∀ b ∈ s.next 0 p, (⟨u, n⟩ : Key) ≤ s.keyAt b) :
    entryAt (s.entriesOf L) u n.toNat =
      ((s.next 0 p).map s.entryOf).filter fun e => e.1.user = u := by
  obtain ⟨pre, post, hL, -, hc, hpre, hpost⟩ := (h.chain 0 (by decide)).cut (h.ascending 0) hp hq
  have hbefore : ∀ b ∈ pre, (s.entryOf b).1.before u n.toNat := by
    intro b hb
    have hk := hpre b hb
    rw [← fst_entryOf] at hk
    exact (Key.before_iff (k := ⟨u, n⟩)).mpr hk
  have hafter : ∀ b ∈ post, ¬ (s.entryOf b).1.before u n.toNat := by
    intro b hb hbef
    have hk := (Key.before_iff (k := ⟨u, n⟩)).mp hbef
    rw [fst_entryOf] at hk
    exact absurd (hpost b hb) (not_le.mpr hk)
  have hfind : (s.entriesOf L).find? (fun e => ¬ e.1.before u n.toNat) =
      (s.next 0 p).map s.entryOf := by
    rw [entriesOf, hL, List.map_append, List.find?_append, List.find?_eq_none.mpr, Option.none_or,
      hc.next_eq]
    · cases post with
      | nil => rfl
      | cons c cs => simp [hafter c List.mem_cons_self]
    · intro e he
      obtain ⟨b, hb, rfl⟩ := List.mem_map.mp he
      simpa using hbefore b hb
  rw [entryAt, hfind]

namespace Reader

/-- What `r` relies on: where it stands in the level that it reads. -/
def Inv (r : Reader) (s : SkipList) (L : ℕ → List ℕ) : Prop :=
  match r.pc with
  | .loadHeight => True
  | .seek level pred => level < MAX_HEIGHT ∧ Below s.keyAt (L level) r.op.bound pred
  | .loadHead => True
  | .curr p => ∀ b ∈ p, b ∈ L 0
  | .done _ => True
  | .panicked => False

/-- A reader keeps what it relies on while an insertion takes a step. -/
theorem Inv.grown (hr : r.Inv s L) (h : Levels s L) (g : Grown a s L s' L') : r.Inv s' L' := by
  unfold Inv at hr ⊢
  split at hr
  · exact hr
  · exact ⟨hr.1, g.below h hr.2⟩
  · exact hr
  · exact fun b hb => g.mono 0 (hr b hb)
  · exact hr
  · exact hr

/-- What `seek` returns: for a lookup its answer, for an iterator its first node. -/
theorem sought_eq (h : Levels s L) (hp : Below s.keyAt (L 0) r.op.bound p)
    (hq : ∀ b ∈ s.next 0 p, r.op.bound ≤ s.keyAt b) :
    (∃ u n, r.op = .getEntryAt u n ∧
        r.sought s (s.next 0 p) = .done (entryAt (s.entriesOf L) u n.toNat)) ∨
      (∀ u n, r.op ≠ .getEntryAt u n) ∧ r.sought s (s.next 0 p) = .curr (s.next 0 p) := by
  cases hop : r.op with
  | iter => exact .inr ⟨(fun _ _ he => nomatch he), by rw [sought, hop]⟩
  | iterFrom key seq => exact .inr ⟨(fun _ _ he => nomatch he), by rw [sought, hop]⟩
  | getEntryAt u n =>
      refine .inl ⟨u, n, rfl, ?_⟩
      rw [hop] at hp hq
      have he := h.entryAt_eq hp hq
      rw [he, sought, hop]
      cases hc : s.next 0 p with
      | none => rfl
      | some c =>
          have hmem : c ∈ L 0 := (h.chain 0 (by decide)).mem_of_next (fun b hb => (hp b hb).1) hc
          obtain ⟨node, hnode⟩ : ∃ node, s.nodes[c]? = some node :=
            Option.isSome_iff_exists.mp (by simpa using h.lt_length hmem)
          simp [hnode, entryOf, Option.filter, Node.entry]

/-- The cases of one access: the reader goes on in a level, ends its search at level 0 between two
neighbours, or passes a node of level 0. -/
inductive Stepped (r : Reader) (s : SkipList) (L : ℕ → List ℕ) : Reader → Prop
  | seek (level : ℕ) (pred : Ptr) (hpc : r.pc = .loadHeight ∨ ∃ l p, r.pc = .seek l p)
      (hl : level < MAX_HEIGHT) (hp : Below s.keyAt (L level) r.op.bound pred) :
      Stepped r s L { r with pc := .seek level pred }
  | found (p : Ptr) (hpc : r.pc = .seek 0 p) (hp : Below s.keyAt (L 0) r.op.bound p)
      (hq : ∀ b ∈ s.next 0 p, r.op.bound ≤ s.keyAt b) :
      Stepped r s L { r with pc := r.sought s (s.next 0 p) }
  | head (hpc : r.pc = .loadHead) : Stepped r s L { r with pc := .curr (s.next 0 none) }
  | next (c : ℕ) (hpc : r.pc = .curr (some c)) (hc : c ∈ L 0) :
      Stepped r s L { r with pc := .curr (s.next 0 (some c)), seen := r.seen ++ [s.entryOf c] }
  | stop (hpc : r.pc = .curr none ∨ ∃ e, r.pc = .done e) : Stepped r s L r

theorem Inv.stepped (hr : r.Inv s L) (h : Levels s L) (low : 0 < s.maxHeight)
    (high : s.maxHeight ≤ MAX_HEIGHT) : Stepped r s L (r.step s) := by
  have hnone : ∀ l, Below s.keyAt (L l) r.op.bound none := fun _ _ hb => nomatch hb
  unfold Inv at hr
  cases hpc : r.pc with
  | loadHeight =>
      obtain ⟨m, hm⟩ : ∃ m, s.maxHeight = m + 1 := Nat.exists_eq_succ_of_ne_zero low.ne'
      rw [step, hpc]
      simp only [hm]
      exact .seek m none (.inl hpc) (by omega) (hnone m)
  | seek level pred =>
      rw [hpc] at hr
      obtain ⟨hl, hp⟩ := hr
      have hload := h.load_eq hl fun b hb => (hp b hb).1
      rw [step, hpc]
      simp only [hload, loaded]
      split_ifs with hlow
      · refine .seek level _ (.inr ⟨_, _, hpc⟩) hl ?_
        intro b hb
        have hb : s.next level pred = some b := hb
        exact ⟨(h.chain level hl).mem_of_next (fun b hb => (hp b hb).1) hb, by simpa [hb] using hlow⟩
      · cases level with
        | zero =>
            refine .found pred hpc hp ?_
            intro b hb
            have hb : s.next 0 pred = some b := hb
            simpa [hb] using hlow
        | succ l => exact .seek l pred (.inr ⟨_, _, hpc⟩) (by omega) (hp.mono (h.sub l))
  | loadHead =>
      rw [step, hpc]
      simp only [h.load_eq (l := 0) (p := none) (by decide) (by simp)]
      exact .head hpc
  | curr p =>
      cases p with
      | none =>
          rw [step, hpc]
          exact .stop (.inl hpc)
      | some c =>
          rw [hpc] at hr
          have hc : c ∈ L 0 := hr c rfl
          obtain ⟨node, hnode⟩ : ∃ node, s.nodes[c]? = some node :=
            Option.isSome_iff_exists.mp (by simpa using h.lt_length hc)
          have hload := h.load_eq (l := 0) (p := some c) (by decide) hr
          have hentry : s.entryOf c = node.entry := by simp [entryOf, hnode]
          rw [step, hpc]
          simp only [hnode, hload, ← hentry]
          exact .next c hpc hc
  | done e =>
      rw [step, hpc]
      exact .stop (.inr ⟨e, hpc⟩)
  | panicked =>
      rw [hpc] at hr
      exact hr.elim

theorem Stepped.inv {r' : Reader} (hs : Stepped r s L r') (h : Levels s L) (hr : r.Inv s L) :
    r'.Inv s L := by
  have hmem : ∀ q, (∀ b ∈ q, b ∈ L 0) → ∀ b ∈ s.next 0 q, b ∈ L 0 := fun q hq b hb =>
    (h.chain 0 (by decide)).mem_of_next hq hb
  cases hs with
  | seek level pred _ hl hp => exact ⟨hl, hp⟩
  | found p _ hp hq =>
      rcases sought_eq h hp hq with ⟨u, n, -, he⟩ | ⟨-, he⟩
      · rw [he]
        trivial
      · rw [he]
        exact hmem p fun b hb => (hp b hb).1
  | head => exact hmem none fun _ hb => nomatch hb
  | next c _ hc =>
      apply hmem
      rintro b ⟨⟩
      exact hc
  | stop => exact hr

/-- An access that ends a lookup finds its answer in the entries of this moment. -/
theorem Stepped.answer {r' : Reader} (hs : Stepped r s L r') (h : Levels s L)
    (hn : r.pc.answer = none) {e : Option Entry} (he : r'.pc.answer = some e) :
    ∃ u n, r.op = .getEntryAt u n ∧ e = entryAt (s.entriesOf L) u n.toNat := by
  cases hs with
  | seek => cases he
  | found p _ hp hq =>
      rcases sought_eq h hp hq with ⟨u, n, hop, hd⟩ | ⟨-, hd⟩
      · rw [hd] at he
        cases he
        exact ⟨u, n, hop, rfl⟩
      · rw [hd] at he
        cases he
  | head => cases he
  | next => cases he
  | stop =>
      rw [hn] at he
      cases he

/-- The answer of a lookup does not change any more. -/
theorem step_of_answer {e : Option Entry} (he : r.pc.answer = some e) : r.step s = r := by
  cases hpc : r.pc with
  | done e => rw [step, hpc]
  | _ => simp [hpc, ReadPc.answer] at he

theorem op_step (r : Reader) (s : SkipList) : (r.step s).op = r.op := by
  unfold step
  repeat (first | rfl | split)

end Reader

/-! ### A step of the insertions -/

variable {st st' : Calls}

/-- The chains of a list are determined up to the height of the towers. -/
theorem Levels.eq_of_lt (h : Levels s L) (h' : Levels s L') (hl : l < MAX_HEIGHT) : L l = L' l :=
  (h.chain l hl).unique (h'.chain l hl)

namespace Calls

/-- All towers end below `MAX_HEIGHT`. -/
theorem Inv.heightAt_le (h : st.Inv L) (ha : a ∈ L 0) : st.list.heightAt a ≤ MAX_HEIGHT := by
  obtain ⟨c, hc, rfl⟩ := h.owned a ha
  rw [(h.calls c hc).heightAt]
  exact (h.calls c hc).le

theorem Inv.eq_of_levels (h : st.Inv L) (h' : Levels st.list L') : L' = L := by
  have hempty : ∀ K, Levels st.list K → ∀ l, MAX_HEIGHT ≤ l → K l = [] := by
    intro K hK l hl
    apply List.eq_nil_iff_forall_not_mem.mpr
    intro a ha
    have h0 : a ∈ L 0 := by
      rw [h.levels.eq_of_lt hK (by decide)]
      exact hK.subset_of_le (Nat.zero_le l) ha
    exact absurd (hK.tall l a ha) (not_lt.mpr ((h.heightAt_le h0).trans hl))
  funext l
  by_cases hl : l < MAX_HEIGHT
  · exact h'.eq_of_lt h.levels hl
  · rw [hempty L' h' l (not_lt.mp hl), hempty L h.levels l (not_lt.mp hl)]

/-- What a step of an insertion is: one access of the call `i`. -/
theorem Inv.stepped [Layout] (h : st.Inv L) {i : ℕ} {spurious : Bool}
    (hs : st.step (.step i spurious) = some st') :
    ∃ c s' pc L', st.calls[i]? = some c ∧ c.step st.list spurious = (s', pc) ∧
      st' = ⟨s', st.calls.set i { c with pc := pc }⟩ ∧ Stepped c st.list L s' pc L' ∧
      st'.Inv L' := by
  obtain ⟨L₁, h₁, -, -⟩ := inv_step h hs
  rw [step] at hs
  obtain ⟨c, hc, hs⟩ := Option.bind_eq_some_iff.mp hs
  obtain ⟨s', pc, L', hstep, hst⟩ :=
    (h.calls c (List.mem_of_getElem? hc)).stepped h.levels h.low h.high spurious
  rw [hstep] at hs
  cases hs
  refine ⟨c, s', pc, L', hc, hstep, rfl, hst, ?_⟩
  rw [h₁.eq_of_levels hst.levels]
  exact h₁

/-- Different calls have different nodes. -/
theorem Inv.node_inj (h : st.Inv L) {i j : ℕ} {c d : Call} (hc : st.calls[i]? = some c)
    (hd : st.calls[j]? = some d) (hn : c.node = d.node) : i = j := by
  have hi : i < (st.calls.map Call.node).length := by
    rw [List.length_map]
    exact (List.getElem?_eq_some_iff.mp hc).1
  apply (List.getElem?_inj hi h.nodes).mp
  rw [List.getElem?_map, List.getElem?_map, hc, hd, Option.map_some, Option.map_some, hn]

end Calls

/-- A call that has returned does nothing more. -/
theorem Call.step_of_answer [Layout] {c : Call} {b : Bool} (hc : c.pc.answer = some b)
    (s : SkipList) (spurious : Bool) : c.step s spurious = (s, c.pc) := by
  cases hpc : c.pc with
  | done b => rw [step, hpc]
  | _ => simp [hpc, Pc.answer] at hc

/-- Level 0 changes only where the node is linked in. -/
theorem Grown.level0 (g : Grown a s L s' L') (h : Levels s L) (h' : Levels s' L') :
    (a ∈ L' 0 → a ∈ L 0) ∧ L' 0 = L 0 ∨ a ∉ L 0 ∧ a ∈ L' 0 ∧ (L' 0).Perm (a :: L 0) := by
  have hasc : (L 0).Pairwise fun a b => s'.keyAt a < s'.keyAt b := by
    refine (h.ascending 0).imp_of_mem fun {a b} ha hb hab => ?_
    rwa [g.keyAt (h.lt_length ha), g.keyAt (h.lt_length hb)]
  by_cases hnew : a ∈ L' 0 ∧ a ∉ L 0
  · obtain ⟨hin, hout⟩ := hnew
    refine .inr ⟨hout, hin, ?_⟩
    apply (List.perm_ext_iff_of_nodup (nodup_of_ascending (h'.ascending 0)) _).mpr
    · intro b
      rw [List.mem_cons]
      constructor
      · exact fun hb => (g.only 0 b hb).symm
      · rintro (rfl | hb)
        · exact hin
        · exact g.mono 0 hb
    · exact List.nodup_cons.mpr ⟨hout, nodup_of_ascending hasc⟩
  · have hin : a ∈ L' 0 → a ∈ L 0 := fun hm => not_not.mp fun hn => hnew ⟨hm, hn⟩
    have hsub : L' 0 ⊆ L 0 := by
      intro b hb
      rcases g.only 0 b hb with hb' | rfl
      · exact hb'
      · exact hin hb
    exact .inl ⟨hin, (sublist_of_subset (h'.ascending 0) hasc hsub).antisymm
      (sublist_of_subset hasc (h'.ascending 0) (g.mono 0))⟩

/-- The entries change only by one new version. -/
theorem Grown.entries (g : Grown a s L s' L') (h : Levels s L) (h' : Levels s' L') :
    (a ∈ L' 0 → a ∈ L 0) ∧ s'.entriesOf L' = s.entriesOf L ∨
      a ∉ L 0 ∧ a ∈ L' 0 ∧ (∀ e ∈ s.entriesOf L, e.1 ≠ s'.keyAt a) ∧
        s'.entriesOf L' = insertEntry (s'.entryOf a) (s.entriesOf L) := by
  have hold : (L 0).map s'.entryOf = s.entriesOf L :=
    List.map_congr_left fun b hb => g.entryOf (h.lt_length hb)
  rcases g.level0 h h' with ⟨hin, heq⟩ | ⟨hout, hin, hperm⟩
  · refine .inl ⟨hin, ?_⟩
    rw [entriesOf, heq, hold]
  · have hkeys : ∀ e ∈ s.entriesOf L, e.1 ≠ s'.keyAt a := by
      intro e he hk
      rw [← hold] at he
      obtain ⟨b, hb, rfl⟩ := List.mem_map.mp he
      rw [fst_entryOf] at hk
      exact hout (eq_of_key (h'.ascending 0) (g.mono 0 hb) hin hk ▸ hb)
    refine .inr ⟨hout, hin, hkeys, ?_⟩
    have hp := hperm.map s'.entryOf
    rw [List.map_cons, hold] at hp
    refine (hp.trans (perm_insertEntry ?_).symm).eq_of_pairwise
      (fun _ _ _ _ h₁ h₂ => absurd (h₁.trans h₂) (lt_irrefl _)) h'.sorted (h.sorted.insertEntry _)
    rw [fst_entryOf]
    exact hkeys

/-! ### Where the operations take effect -/

namespace Shared

variable {st st' : Shared} {order : List (OpId × ListOp × ListAnswer)}

/-- The operation has taken effect: the node is in level 0, or the call has its answer. -/
def Placed (st : Shared) (L : ℕ → List ℕ) : OpId → Prop
  | .inl i => ∃ c, st.inserts.calls[i]? = some c ∧ (c.node ∈ L 0 ∨ c.pc.answer = some false)
  | .inr j => ∃ r, st.readers[j]? = some r ∧ r.pc.answer.isSome

/-- The list, its callers and the history together. -/
structure Inv (st : Shared) (L : ℕ → List ℕ) (order : List (OpId × ListOp × ListAnswer)) :
    Prop where
  inserts : st.inserts.Inv L
  readers : ∀ r ∈ st.readers, r.Inv st.inserts.list L
  points : Points sortedEntries st.history order (st.inserts.list.entriesOf L)
  placed : ∀ x, x ∈ order.map Prod.fst ↔ st.Placed L x
  linked : ∀ i c, st.inserts.calls[i]? = some c → c.node ∈ L 0 →
    (.inl i, .insert c.key c.value, .inserted true) ∈ order
  called : ∀ i c, st.inserts.calls[i]? = some c →
    .call (.inl i) (.insert c.key c.value) ∈ st.history
  asked : ∀ j r u n, st.readers[j]? = some r → r.op = .getEntryAt u n →
    .call (.inr j) (.getEntryAt u n) ∈ st.history

theorem inv_start : Inv start (fun _ => []) [] where
  inserts := Calls.inv_start
  readers _ h := absurd h List.not_mem_nil
  points := .start _
  placed x := by
    constructor
    · exact fun hx => absurd hx List.not_mem_nil
    · intro hx
      cases x with
      | inl i =>
          obtain ⟨c, hc, -⟩ := hx
          cases hc
      | inr j =>
          obtain ⟨r, hr, -⟩ := hx
          cases hr
  linked _ _ hc := nomatch hc
  called _ _ hc := nomatch hc
  asked _ _ _ _ hr := nomatch hr

/-- A new insertion has not taken effect. -/
theorem inv_call (h : st.Inv L order) (key : Key) (value : Value) {height : ℕ} (h1 : 1 ≤ height)
    (hh : height ≤ MAX_HEIGHT) :
    Inv ⟨⟨st.inserts.list.alloc key value height, st.inserts.calls ++
        [⟨key, value, height, st.inserts.list.nodes.length, .loadHeight⟩]⟩, st.readers,
      st.history ++ [.call (.inl st.inserts.calls.length) (.insert key value)]⟩ L order := by
  have hg := Calls.grown_alloc st.inserts.list L key value height
  have hout : st.inserts.list.nodes.length ∉ L 0 := fun hm =>
    lt_irrefl _ (h.inserts.levels.lt_length hm)
  have hinv := Calls.inv_call h.inserts key value h1 hh
  -- the last call is the new one, the others are as before
  have hget : ∀ i c, (st.inserts.calls ++
      [⟨key, value, height, st.inserts.list.nodes.length, .loadHeight⟩])[i]? = some c →
      st.inserts.calls[i]? = some c ∨ i = st.inserts.calls.length ∧
        c = ⟨key, value, height, st.inserts.list.nodes.length, .loadHeight⟩ := by
    intro i c hc
    rw [List.getElem?_append] at hc
    split_ifs at hc with hi
    · exact .inl hc
    · obtain ⟨hlt, rfl⟩ := List.getElem?_eq_some_iff.mp hc
      simp only [List.length_singleton] at hlt
      exact .inr ⟨by omega, by simp⟩
  refine ⟨hinv, fun r hr => (h.readers r hr).grown h.inserts.levels hg, ?_, ?_, ?_, ?_, ?_⟩
  · rcases hg.entries h.inserts.levels hinv.levels with ⟨-, he⟩ | ⟨-, hin, -⟩
    · show Points sortedEntries _ order (entriesOf _ L)
      rw [he]
      exact h.points.call _ _
    · exact absurd hin hout
  · intro x
    rw [h.placed x]
    cases x with
    | inr j => exact Iff.rfl
    | inl i =>
        constructor
        · rintro ⟨c, hc, hp⟩
          exact ⟨c, (List.getElem?_append_left (List.getElem?_eq_some_iff.mp hc).1).trans hc, hp⟩
        · rintro ⟨c, hc, hp⟩
          rcases hget i c hc with hc | ⟨-, rfl⟩
          · exact ⟨c, hc, hp⟩
          · rcases hp with hp | hp
            · exact absurd hp hout
            · cases hp
  · intro i c hc hm
    rcases hget i c hc with hc | ⟨-, rfl⟩
    · exact h.linked i c hc hm
    · exact absurd hm hout
  · intro i c hc
    rcases hget i c hc with hc | ⟨rfl, rfl⟩
    · exact List.mem_append_left _ (h.called i c hc)
    · exact List.mem_append_right _ (List.mem_singleton.mpr rfl)
  · intro j r u n hr hop
    exact List.mem_append_left _ (h.asked j r u n hr hop)

/-- The return of the call `i`, where it has its answer after the step. -/
theorem points_ret {α : Type} {h : List (Event OpId ListOp ListAnswer)} {es : List Entry}
    {x : OpId} {before after : Option α} {f : α → ListAnswer}
    (p : Points sortedEntries h order es)
    (ha : ∀ b, before = none → after = some b → ∃ op, (x, op, f b) ∈ order) :
    Points sortedEntries (h ++ (newAnswer before after).map fun b => .ret x (f b)) order es := by
  unfold newAnswer
  split_ifs with hn
  · cases after with
    | none => simpa using p
    | some b =>
        obtain ⟨op, hm⟩ := ha b (Option.isNone_iff_eq_none.mp hn) rfl
        exact p.ret hm
  · simpa using p

section insert

variable {i : ℕ} {c : Call} {s' : SkipList} {pc : Pc}
  {order' : List (OpId × ListOp × ListAnswer)}

/-- The other calls are placed as before. -/
theorem placed_set (h : st.Inv L order) (hc : st.inserts.calls[i]? = some c)
    (hg : Grown c.node st.inserts.list L s' L') {x : OpId} (hx : x ≠ .inl i) :
    Placed ⟨⟨s', st.inserts.calls.set i { c with pc := pc }⟩, st.readers, st.history⟩ L' x ↔
      st.Placed L x := by
  cases x with
  | inr j => exact Iff.rfl
  | inl k =>
      have hk : i ≠ k := fun he => hx (congrArg Sum.inl he.symm)
      show (∃ d, (st.inserts.calls.set i { c with pc := pc })[k]? = some d ∧ _) ↔
        ∃ d, st.inserts.calls[k]? = some d ∧ _
      rw [List.getElem?_set_ne hk]
      refine exists_congr fun d => and_congr_right fun hd => or_congr_left ?_
      have hne : d.node ≠ c.node := fun hn => hk (h.inserts.node_inj hc hd hn.symm)
      exact ⟨fun hm => (hg.only 0 _ hm).resolve_right hne, fun hm => hg.mono 0 hm⟩

/-- The access of a call, when the order has the place of the call after it. -/
theorem inv_set [Layout] (h : st.Inv L order) (hc : st.inserts.calls[i]? = some c)
    (hg : Grown c.node st.inserts.list L s' L')
    (hinv : Calls.Inv ⟨s', st.inserts.calls.set i { c with pc := pc }⟩ L') (spurious : Bool)
    (hp : Points sortedEntries st.history order' (s'.entriesOf L'))
    (hx : ∀ x, x ≠ .inl i → (x ∈ order'.map Prod.fst ↔ x ∈ order.map Prod.fst))
    (hi : .inl i ∈ order'.map Prod.fst ↔ c.node ∈ L' 0 ∨ pc.answer = some false)
    (hsub : order ⊆ order')
    (htrue : c.node ∈ L' 0 → (.inl i, .insert c.key c.value, .inserted true) ∈ order')
    (hfalse : pc.answer = some false → c.pc.answer = none →
      (.inl i, .insert c.key c.value, .inserted false) ∈ order') :
    Inv ⟨⟨s', st.inserts.calls.set i { c with pc := pc }⟩, st.readers,
      st.history ++ (CallAct.step i spurious).events st.inserts
        ⟨s', st.inserts.calls.set i { c with pc := pc }⟩⟩ L' order' := by
  have hself : (st.inserts.calls.set i { c with pc := pc })[i]? = some { c with pc := pc } :=
    List.getElem?_set_self (List.getElem?_eq_some_iff.mp hc).1
  -- what is known of the calls that are not `i`
  have hother : ∀ k d, k ≠ i → (st.inserts.calls.set i { c with pc := pc })[k]? = some d →
      st.inserts.calls[k]? = some d ∧ d.node ≠ c.node := by
    intro k d hk hd
    rw [List.getElem?_set_ne hk.symm] at hd
    exact ⟨hd, fun hn => hk (h.inserts.node_inj hd hc hn)⟩
  refine ⟨hinv, fun r hr => (h.readers r hr).grown h.inserts.levels hg, ?_, ?_, ?_, ?_, ?_⟩
  · apply points_ret hp
    intro b hb hb'
    rw [hc] at hb
    rw [hself] at hb'
    cases b with
    | true =>
        exact ⟨_, htrue (hinv.of_true (c := { c with pc := pc }) (List.mem_of_getElem? hself) hb')⟩
    | false => exact ⟨_, hfalse hb' hb⟩
  · intro x
    by_cases he : x = .inl i
    · subst he
      rw [hi]
      constructor
      · exact fun hp => ⟨_, hself, hp⟩
      · rintro ⟨d, hd, hp⟩
        cases hself.symm.trans hd
        exact hp
    · rw [hx x he, h.placed x]
      exact (placed_set h hc hg he).symm
  · intro k d hd hm
    by_cases hk : k = i
    · subst hk
      cases hself.symm.trans hd
      exact htrue hm
    · obtain ⟨hd, hne⟩ := hother k d hk hd
      exact hsub (h.linked k d hd ((hg.only 0 _ hm).resolve_right hne))
  · intro k d hd
    apply List.mem_append_left
    by_cases hk : k = i
    · subst hk
      cases hself.symm.trans hd
      exact h.called k c hc
    · exact h.called k d (hother k d hk hd).1
  · exact fun j r u n hr hop => List.mem_append_left _ (h.asked j r u n hr hop)

end insert

/-- The order with a new last operation. -/
theorem mem_snoc {x y : OpId} {op : ListOp} {r : ListAnswer} :
    x ∈ (order ++ [(y, op, r)]).map Prod.fst ↔ x ∈ order.map Prod.fst ∨ x = y := by simp

theorem placed_call (h : st.Inv L order) (hc : st.inserts.calls[i]? = some c) :
    .inl i ∈ order.map Prod.fst ↔ c.node ∈ L 0 ∨ c.pc.answer = some false := by
  rw [h.placed]
  constructor
  · rintro ⟨d, hd, hp⟩
    cases hc.symm.trans hd
    exact hp
  · exact fun hp => ⟨c, hc, hp⟩

/-- One access of an insertion: it takes effect where it links its node at level 0, or where it finds
its version there. -/
theorem inv_insert [Layout] (h : st.Inv L order) {i : ℕ} {spurious : Bool} {inserts : Calls}
    (hs : st.inserts.step (.step i spurious) = some inserts) :
    ∃ L' order', Inv ⟨inserts, st.readers,
        st.history ++ (CallAct.step i spurious).events st.inserts inserts⟩ L' order' ∧
      ∃ a, Grown a st.inserts.list L inserts.list L' := by
  obtain ⟨c, s', pc, L', hc, hstep, rfl, hst, hinv⟩ := h.inserts.stepped hs
  have hg := hst.grown
  have hcm : { c with pc := pc } ∈ st.inserts.calls.set i { c with pc := pc } :=
    List.mem_of_getElem? (List.getElem?_set_self (List.getElem?_eq_some_iff.mp hc).1)
  have hkey : s'.entryOf c.node = (c.key, c.value) := (hinv.calls _ hcm).entryOf
  have hkeyAt : s'.keyAt c.node = c.key := (hinv.calls _ hcm).keyAt
  have hof_false : pc.answer = some false →
      c.node ∉ L' 0 ∧ ∃ b ∈ L' 0, s'.keyAt b = c.key := fun ha =>
    hinv.of_false (c := { c with pc := pc }) hcm ha
  have hdone : c.pc.answer = some false → pc.answer = some false := by
    intro ha
    rw [Call.step_of_answer ha, Prod.mk.injEq] at hstep
    rw [← hstep.2, ha]
  have hplaced := placed_call h hc
  rcases hg.entries h.inserts.levels hst.levels with ⟨hin, he⟩ | ⟨hout, hin, hkeys, he⟩
  · by_cases hnew : pc.answer = some false ∧ c.pc.answer ≠ some false
    · -- the call has found its version
      obtain ⟨hout, b, hb, hbk⟩ := hof_false hnew.1
      have hx : s'.entryOf b ∈ st.inserts.list.entriesOf L := he ▸ List.mem_map_of_mem hb
      have hap := apply_insert_duplicate h.inserts.levels.sorted hx c.value
      rw [fst_entryOf, hbk] at hap
      have hi : .inl i ∉ order.map Prod.fst := by
        rw [hplaced]
        rintro (hm | ha)
        · exact hout (hg.mono 0 hm)
        · exact hnew.2 ha
      have hp := h.points.effect (h.called i c hc) hi
      rw [hap, ← he] at hp
      refine ⟨L', _, inv_set h hc hg hinv spurious hp ?_ ?_ (List.subset_append_left ..)
        (fun hm => absurd hm hout) ?_, _, hg⟩
      · exact fun x hx => mem_snoc.trans (or_iff_left hx)
      · exact ⟨fun _ => .inr hnew.1, fun _ => mem_snoc.mpr (.inr rfl)⟩
      · exact fun _ _ => List.mem_append_right _ (List.mem_singleton.mpr rfl)
    · -- the order stays as it is
      have hiff : pc.answer = some false ↔ c.pc.answer = some false :=
        ⟨fun ha => not_not.mp fun hn => hnew ⟨ha, hn⟩, hdone⟩
      refine ⟨L', order, inv_set h hc hg hinv spurious (he.symm ▸ h.points) (fun x _ => Iff.rfl) ?_
        (List.Subset.refl _) (fun hm => h.linked i c hc (hin hm)) ?_, _, hg⟩
      · rw [hplaced, hiff]
        exact or_congr_left ⟨fun hm => hg.mono 0 hm, hin⟩
      · intro ha hn
        rw [hiff.mp ha] at hn
        cases hn
  · -- the call has linked its node at level 0
    rw [hkeyAt] at hkeys
    rw [hkey] at he
    have hfalse : pc.answer ≠ some false := fun ha => (hof_false ha).1 hin
    have hi : .inl i ∉ order.map Prod.fst := by
      rw [hplaced]
      rintro (hm | ha)
      · exact hout hm
      · exact hfalse (hdone ha)
    have hp := h.points.effect (h.called i c hc) hi
    rw [apply_insert_new hkeys, ← he] at hp
    refine ⟨L', _, inv_set h hc hg hinv spurious hp ?_ ?_ (List.subset_append_left ..) ?_
      (fun ha => absurd ha hfalse), _, hg⟩
    · exact fun x hx => mem_snoc.trans (or_iff_left hx)
    · exact ⟨fun _ => .inl hin, fun _ => mem_snoc.mpr (.inr rfl)⟩
    · exact fun _ => List.mem_append_right _ (List.mem_singleton.mpr rfl)

/-- A new reader. -/
theorem inv_read (h : st.Inv L order) (op : ReadOp) :
    Inv ⟨st.inserts, st.readers ++ [⟨op, op.start, []⟩],
      st.history ++ op.events st.readers.length⟩ L order := by
  have hget : ∀ j r, (st.readers ++ [⟨op, op.start, []⟩])[j]? = some r →
      st.readers[j]? = some r ∨ j = st.readers.length ∧ r = ⟨op, op.start, []⟩ := by
    intro j r hr
    rw [List.getElem?_append] at hr
    split_ifs at hr with hj
    · exact .inl hr
    · obtain ⟨hlt, rfl⟩ := List.getElem?_eq_some_iff.mp hr
      simp only [List.length_singleton] at hlt
      exact .inr ⟨by omega, by simp⟩
  refine ⟨h.inserts, fun r hr => ?_, ?_, ?_, h.linked, ?_, ?_⟩
  · rcases List.mem_append.mp hr with hr | hr
    · exact h.readers r hr
    · rw [List.mem_singleton.mp hr]
      cases op <;> trivial
  · cases op with
    | getEntryAt u n => exact h.points.call _ _
    | iter => simpa [ReadOp.events] using h.points
    | iterFrom u n => simpa [ReadOp.events] using h.points
  · intro x
    rw [h.placed x]
    cases x with
    | inl i => exact Iff.rfl
    | inr j =>
        constructor
        · rintro ⟨r, hr, ha⟩
          exact ⟨r, (List.getElem?_append_left (List.getElem?_eq_some_iff.mp hr).1).trans hr, ha⟩
        · rintro ⟨r, hr, ha⟩
          rcases hget j r hr with hr | ⟨-, rfl⟩
          · exact ⟨r, hr, ha⟩
          · cases op <;> cases ha
  · exact fun i c hc => List.mem_append_left _ (h.called i c hc)
  · intro j r u n hr hop
    rcases hget j r hr with hr | ⟨rfl, rfl⟩
    · exact List.mem_append_left _ (h.asked j r u n hr hop)
    · have hop : op = .getEntryAt u n := hop
      subst hop
      exact List.mem_append_right _ (List.mem_singleton.mpr rfl)

theorem placed_reader (h : st.Inv L order) {j : ℕ} {r : Reader} (hr : st.readers[j]? = some r) :
    .inr j ∈ order.map Prod.fst ↔ r.pc.answer.isSome := by
  rw [h.placed]
  constructor
  · rintro ⟨q, hq, ha⟩
    cases hr.symm.trans hq
    exact ha
  · exact fun ha => ⟨r, hr, ha⟩

/-- One access of a reader, which has its answer after it exactly when it is in the new order. -/
theorem inv_access (h : st.Inv L order) {j : ℕ} {r : Reader} (hr : st.readers[j]? = some r)
    (hp : Points sortedEntries st.history order' (st.inserts.list.entriesOf L))
    (hx : ∀ x, x ≠ .inr j → (x ∈ order'.map Prod.fst ↔ x ∈ order.map Prod.fst))
    (hj : .inr j ∈ order'.map Prod.fst ↔ (r.step st.inserts.list).pc.answer.isSome)
    (hsub : order ⊆ order')
    (hans : ∀ e, r.pc.answer = none → (r.step st.inserts.list).pc.answer = some e →
      ∃ op, (.inr j, op, .entry e) ∈ order') :
    Inv ⟨st.inserts, st.readers.set j (r.step st.inserts.list),
      st.history ++ (newAnswer r.pc.answer (r.step st.inserts.list).pc.answer).map
        fun e => .ret (.inr j) (.entry e)⟩ L order' := by
  have hri := h.readers r (List.mem_of_getElem? hr)
  have hst := hri.stepped h.inserts.levels h.inserts.low h.inserts.high
  have hself : (st.readers.set j (r.step st.inserts.list))[j]? = some (r.step st.inserts.list) :=
    List.getElem?_set_self (List.getElem?_eq_some_iff.mp hr).1
  have hother : ∀ k, k ≠ j → (st.readers.set j (r.step st.inserts.list))[k]? = st.readers[k]? :=
    fun k hk => List.getElem?_set_ne hk.symm
  refine ⟨h.inserts, fun q hq => ?_, points_ret hp hans, fun x => ?_, ?_, ?_, ?_⟩
  · rcases List.mem_or_eq_of_mem_set hq with hq | rfl
    · exact h.readers q hq
    · exact hst.inv h.inserts.levels hri
  · by_cases he : x = .inr j
    · subst he
      rw [hj]
      constructor
      · exact fun ha => ⟨_, hself, ha⟩
      · rintro ⟨q, hq, ha⟩
        cases hself.symm.trans hq
        exact ha
    · rw [hx x he, h.placed x]
      cases x with
      | inl i => exact Iff.rfl
      | inr k =>
          show (∃ q, st.readers[k]? = some q ∧ _) ↔
            ∃ q, (st.readers.set j (r.step st.inserts.list))[k]? = some q ∧ _
          rw [hother k fun hk => he (congrArg Sum.inr hk)]
  · exact fun i c hc hm => hsub (h.linked i c hc hm)
  · exact fun i c hc => List.mem_append_left _ (h.called i c hc)
  · intro k q u n hq hop
    apply List.mem_append_left
    by_cases hk : k = j
    · subst hk
      cases hself.symm.trans hq
      exact h.asked k r u n hr ((r.op_step _).symm.trans hop)
    · exact h.asked k q u n ((hother k hk).symm.trans hq) hop

/-- One access of a reader: a lookup takes effect where it finds its answer. -/
theorem inv_next (h : st.Inv L order) {j : ℕ} {r : Reader} (hr : st.readers[j]? = some r) :
    ∃ order', Inv ⟨st.inserts, st.readers.set j (r.step st.inserts.list),
      st.history ++ (newAnswer r.pc.answer (r.step st.inserts.list).pc.answer).map
        fun e => .ret (.inr j) (.entry e)⟩ L order' := by
  have hri := h.readers r (List.mem_of_getElem? hr)
  have hst := hri.stepped h.inserts.levels h.inserts.low h.inserts.high
  by_cases hnew : r.pc.answer = none ∧ (r.step st.inserts.list).pc.answer.isSome
  · obtain ⟨hn, hs⟩ := hnew
    obtain ⟨e, he⟩ := Option.isSome_iff_exists.mp hs
    obtain ⟨u, n, hop, rfl⟩ := hst.answer h.inserts.levels hn he
    have hi : .inr j ∉ order.map Prod.fst := by
      rw [placed_reader h hr, hn]
      exact Bool.false_ne_true
    refine ⟨_, inv_access h hr (h.points.effect (h.asked j r u n hr hop) hi) ?_ ?_
      (List.subset_append_left ..) ?_⟩
    · exact fun x hx => mem_snoc.trans (or_iff_left hx)
    · exact ⟨fun _ => hs, fun _ => mem_snoc.mpr (.inr rfl)⟩
    · intro e' _ he'
      cases he.symm.trans he'
      exact ⟨_, List.mem_append_right _ (List.mem_singleton.mpr rfl)⟩
  · have hkeep : (r.step st.inserts.list).pc.answer.isSome = r.pc.answer.isSome := by
      cases ha : r.pc.answer with
      | none => simpa [ha] using hnew
      | some e => rw [Reader.step_of_answer ha, ha]
    refine ⟨order, inv_access h hr h.points (fun _ _ => Iff.rfl) ?_ (List.Subset.refl _) ?_⟩
    · rw [placed_reader h hr, hkeep]
    · exact fun e hn he => absurd ⟨hn, he ▸ rfl⟩ hnew

/-- What a step is: one of the insertions, which lets the chains grow, or one of the readers, which
leaves the list as it is. -/
inductive Moved (st : Shared) (L : ℕ → List ℕ) (st' : Shared) (L' : ℕ → List ℕ) : Prop
  | insert (a : ℕ) (g : Grown a st.inserts.list L st'.inserts.list L')
      (hr : st'.readers = st.readers)
  | read (op : ReadOp) (hi : st'.inserts = st.inserts) (hL : L' = L)
      (hr : st'.readers = st.readers ++ [⟨op, op.start, []⟩])
  | next (j : ℕ) (r : Reader) (hj : st.readers[j]? = some r) (hi : st'.inserts = st.inserts)
      (hL : L' = L) (hr : st'.readers = st.readers.set j (r.step st.inserts.list))

theorem inv_step [Layout] (h : st.Inv L order) {a : SharedAct} (hs : st.step a = some st') :
    ∃ L' order', st'.Inv L' order' ∧ Moved st L st' L' := by
  cases a with
  | insert a =>
      rw [step] at hs
      obtain ⟨inserts, hi, hs⟩ := Option.bind_eq_some_iff.mp hs
      cases hs
      cases a with
      | call key value height =>
          rw [Calls.step] at hi
          split_ifs at hi with hif
          cases hi
          exact ⟨L, order, inv_call h key value hif.1 hif.2,
            .insert _ (Calls.grown_alloc st.inserts.list L key value height) rfl⟩
      | step i spurious =>
          obtain ⟨L', order', hinv, a, hg⟩ := inv_insert h hi
          exact ⟨L', order', hinv, .insert a hg rfl⟩
  | read op =>
      cases hs
      exact ⟨L, order, inv_read h op, .read op rfl rfl rfl⟩
  | next j =>
      rw [step] at hs
      obtain ⟨r, hr, hs⟩ := Option.bind_eq_some_iff.mp hs
      cases hs
      obtain ⟨order', hinv⟩ := inv_next h hr
      exact ⟨L, order', hinv, .next j r hr rfl rfl rfl⟩

theorem inv_run [Layout] (h : st.Inv L order) {acts : List SharedAct}
    (hr : st.run acts = some st') : ∃ L' order', st'.Inv L' order' := by
  induction acts generalizing st L order with
  | nil =>
      cases hr
      exact ⟨L, order, h⟩
  | cons a acts ih =>
      rw [run, List.foldlM_cons] at hr
      obtain ⟨st₁, hs, hr⟩ := Option.bind_eq_some_iff.mp hr
      obtain ⟨L₁, order₁, h₁, -⟩ := inv_step h hs
      exact ih h₁ hr

/-- In every order of the accesses, the calls and returns of insertions and lookups are those of one
sorted list of entries that is used by one client at a time; and no caller has accessed a slot outside
the bounds of the head or of a tower. -/
theorem linearizable [Layout] {acts : List SharedAct} (hr : start.run acts = some st) :
    Linearizable sortedEntries st.history ∧ (∀ c ∈ st.inserts.calls, c.pc ≠ .panicked) ∧
      ∀ r ∈ st.readers, r.pc ≠ .panicked := by
  obtain ⟨L, order, h⟩ := inv_run inv_start hr
  refine ⟨h.points.explained, h.inserts.sound.calls, ?_⟩
  intro r hr hp
  have hri := h.readers r hr
  rw [Reader.Inv, hp] at hri
  exact hri

/-- A lookup that finds a version before its insertion has returned. -/
def overlapping : List SharedAct :=
  [.insert (.call ⟨.ascii [0x6b], 1⟩ .delete 1), .read (.getEntryAt (.ascii [0x6b]) 5)] ++
    List.replicate 5 (.insert (.step 0 false)) ++ List.replicate 2 (.next 0) ++
    List.replicate 2 (.insert (.step 0 false))

theorem linearizable_overlapping :
    ∃ st, @run ⟨64, 8⟩ start overlapping = some st ∧
      st.readers.map (fun r => r.pc.answer) = [some (some (⟨.ascii [0x6b], 1⟩, .delete))] ∧
      Linearizable sortedEntries st.history := by
  have hans : ((@run ⟨64, 8⟩ start overlapping).map fun st =>
      st.readers.map fun r => r.pc.answer) =
        some [some (some (⟨.ascii [0x6b], 1⟩, .delete))] := by decide +kernel
  obtain ⟨st, hr, hans⟩ := Option.map_eq_some_iff.mp hans
  exact ⟨st, hr, hans, (@linearizable st ⟨64, 8⟩ _ hr).1⟩

end Shared

end SkipList

end LowDB
