import LowDB.MemTable.Readers

/-! # Iterators beside insertions

An iterator holds the node that it yields next, and has loaded it some time ago: nodes that were linked
in before it since then are not seen any more.  `Yields` says what it still does: it ascends, it yields
only what the list has, and none of the entries `B` that the list had when the iterator was made is
between what it has yielded and its next node. -/

namespace LowDB

open Chains

namespace SkipList

/-- The keys that an iterator is for. -/
def ReadOp.wants : ReadOp → Key → Prop
  | .getEntryAt _ _, _ => False
  | .iter, _ => True
  | .iterFrom key seq, k => ⟨key, seq⟩ ≤ k

theorem ReadOp.wants_mono (op : ReadOp) {k k' : Key} (hle : k ≤ k') (h : op.wants k) :
    op.wants k' := by
  cases op with
  | getEntryAt => exact h.elim
  | iter => trivial
  | iterFrom key seq => exact le_trans h hle

variable {s s' : SkipList} {L L' : ℕ → List ℕ} {a : ℕ} {p : Ptr} {r r' : Reader} {B : List Entry}

/-- The node `p` comes after what was yielded, and no wanted entry of `B` lies between. -/
structure Reader.Next (r : Reader) (s : SkipList) (B : List Entry) (p : Ptr) : Prop where
  above : ∀ c ∈ p, ∀ e ∈ r.seen, e.1 < s.keyAt c
  wanted : ∀ c ∈ p, r.op.wants (s.keyAt c)
  covers : ∀ e ∈ B, r.op.wants e.1 → e ∈ r.seen ∨ ∃ c ∈ p, s.keyAt c ≤ e.1

/-- What an iterator has yielded, and where it stands. -/
structure Reader.Yields (r : Reader) (s : SkipList) (L : ℕ → List ℕ) (B : List Entry) : Prop where
  base : B ⊆ s.entriesOf L
  sorted : Sorted r.seen
  stored : r.seen ⊆ s.entriesOf L
  wanted : ∀ e ∈ r.seen, r.op.wants e.1
  next : ∀ p, r.pc = .curr p → r.Next s B p
  first : (∀ p, r.pc ≠ .curr p) → r.seen = []
  searches : (r.pc = .loadHeight ∨ ∃ l p, r.pc = .seek l p) → r.op ≠ .iter
  heads : r.pc = .loadHead → r.op = .iter

namespace Reader

/-- An iterator that starts covers the entries of this moment. -/
theorem yields_start (op : ReadOp) (s : SkipList) (L : ℕ → List ℕ) :
    Yields ⟨op, op.start, []⟩ s L (s.entriesOf L) where
  base := List.Subset.refl _
  sorted := List.Pairwise.nil
  stored := List.nil_subset _
  wanted _ he := absurd he List.not_mem_nil
  next p hp := by cases op <;> cases hp
  first _ := rfl
  searches hp he := by
    subst he
    rcases hp with hp | ⟨_, _, hp⟩ <;> cases hp
  heads hp := by
    cases op with
    | iter => rfl
    | _ => cases hp

theorem Yields.grown (hy : r.Yields s L B) (h : Levels s L) (hr : r.Inv s L)
    (g : Grown a s L s' L') : r.Yields s' L' B := by
  have hsub : s.entriesOf L ⊆ s'.entriesOf L' := by
    intro e he
    obtain ⟨b, hb, rfl⟩ := List.mem_map.mp he
    rw [← g.entryOf (h.lt_length hb)]
    exact List.mem_map_of_mem (g.mono 0 hb)
  refine ⟨List.Subset.trans hy.base hsub, hy.sorted, List.Subset.trans hy.stored hsub, hy.wanted, ?_,
    hy.first, hy.searches, hy.heads⟩
  intro p hp
  have hn := hy.next p hp
  rw [Inv, hp] at hr
  have hkey : ∀ c ∈ p, s'.keyAt c = s.keyAt c := fun c hc => g.keyAt (h.lt_length (hr c hc))
  refine ⟨fun c hc e he => ?_, fun c hc => ?_, fun e he hw => ?_⟩
  · rw [hkey c hc]
    exact hn.above c hc e he
  · rw [hkey c hc]
    exact hn.wanted c hc
  · refine (hn.covers e he hw).imp_right ?_
    rintro ⟨c, hc, hle⟩
    exact ⟨c, hc, by rwa [hkey c hc]⟩

/-- The first node, of the list or behind a search, comes before every wanted node. -/
theorem next_first (h : Levels s L) (hseen : r.seen = []) (hB : B ⊆ s.entriesOf L)
    (hw : ∀ c ∈ s.next 0 p, r.op.wants (s.keyAt c))
    (hp : ∀ b ∈ L 0, r.op.wants (s.keyAt b) → Below s.keyAt (L 0) (s.keyAt b) p) :
    r.Next s B (s.next 0 p) where
  above c _ e he := by
    rw [hseen] at he
    cases he
  wanted := hw
  covers e he hwe := by
    obtain ⟨b, hb, rfl⟩ := List.mem_map.mp (hB he)
    rw [fst_entryOf] at hwe ⊢
    exact .inr ((h.chain 0 (by decide)).exists_next_le (h.ascending 0) hb (hp b hb hwe))

/-- An iterator that has found its first node. -/
theorem Yields.found (hy : r.Yields s L B) (h : Levels s L) (hpc : ∀ q, r.pc ≠ .curr q)
    (hw : ∀ c ∈ s.next 0 p, r.op.wants (s.keyAt c))
    (hp : ∀ b ∈ L 0, r.op.wants (s.keyAt b) → Below s.keyAt (L 0) (s.keyAt b) p) :
    Yields { r with pc := .curr (s.next 0 p) } s L B := by
  have hseen : r.seen = [] := hy.first hpc
  refine ⟨hy.base, hy.sorted, hy.stored, hy.wanted, ?_, fun _ => hseen, ?_, fun hq => nomatch hq⟩
  · rintro _ ⟨⟩
    exact next_first (r := { r with pc := .curr (s.next 0 p) }) h hseen hy.base hw hp
  · rintro (hq | ⟨_, _, hq⟩) <;> cases hq

/-- An iterator passes the node `c`. -/
theorem Yields.pass (hy : r.Yields s L B) (h : Levels s L) {c : ℕ} (hpc : r.pc = .curr (some c))
    (hc : c ∈ L 0) :
    Yields { r with pc := .curr (s.next 0 (some c)), seen := r.seen ++ [s.entryOf c] } s L B := by
  have hchain := h.chain 0 (by decide)
  have hasc := h.ascending 0
  have hn := hy.next _ hpc
  have hself : (s.entryOf c).1 = s.keyAt c := fst_entryOf s c
  have hlt : ∀ b ∈ s.next 0 (some c), s.keyAt c < s.keyAt b := fun b hb =>
    hchain.lt_of_next hasc hc hb
  refine ⟨hy.base, ?_, ?_, ?_, ?_, fun hq => absurd rfl (hq _), ?_, fun hq => nomatch hq⟩
  · refine List.pairwise_append.mpr ⟨hy.sorted, List.pairwise_singleton _ _, ?_⟩
    intro e he x hx
    rw [List.mem_singleton.mp hx, hself]
    exact hn.above c rfl e he
  · intro e he
    rcases List.mem_append.mp he with he | he
    · exact hy.stored he
    · rw [List.mem_singleton.mp he]
      exact List.mem_map_of_mem hc
  · intro e he
    rcases List.mem_append.mp he with he | he
    · exact hy.wanted e he
    · rw [List.mem_singleton.mp he, hself]
      exact hn.wanted c rfl
  · rintro _ ⟨⟩
    refine ⟨fun b hb e he => ?_, fun b hb => ?_, fun e he hw => ?_⟩
    · rcases List.mem_append.mp he with he | he
      · exact (hn.above c rfl e he).trans (hlt b hb)
      · rw [List.mem_singleton.mp he, hself]
        exact hlt b hb
    · exact r.op.wants_mono (hlt b hb).le (hn.wanted c rfl)
    · rcases hn.covers e he hw with hs | ⟨d, hd, hle⟩
      · exact .inl (List.mem_append_left _ hs)
      · cases hd
        obtain ⟨b, hb, rfl⟩ := List.mem_map.mp (hy.base he)
        rw [fst_entryOf] at hle ⊢
        rcases hle.lt_or_eq with hlt | heq
        · right
          apply hchain.exists_next_le hasc hb
          rintro _ ⟨⟩
          exact ⟨hc, hlt⟩
        · left
          rw [eq_of_key hasc hc hb heq]
          exact List.mem_append_right _ (List.mem_singleton.mpr rfl)
  · rintro (hq | ⟨_, _, hq⟩) <;> cases hq

/-- One access of an iterator. -/
theorem Yields.stepped (hy : r.Yields s L B) (h : Levels s L) (hst : Stepped r s L r') :
    r'.Yields s L B := by
  cases hst with
  | seek level pred hpc =>
      refine ⟨hy.base, hy.sorted, hy.stored, hy.wanted, fun p hp => (nomatch hp), fun _ => ?_,
        fun _ => hy.searches (hpc.imp_right fun h => h), fun hp => (nomatch hp)⟩
      apply hy.first
      intro p hp
      rcases hpc with hpc | ⟨_, _, hpc⟩ <;> cases hpc.symm.trans hp
  | found p hpc hp hq =>
      rcases sought_eq h hp hq with ⟨u, n, hop, hd⟩ | ⟨hop, hd⟩
      · rw [hd]
        refine ⟨hy.base, hy.sorted, hy.stored, hy.wanted, fun p hp => (nomatch hp), fun _ => ?_, ?_,
          fun hp => (nomatch hp)⟩
        · exact hy.first fun q hq => nomatch hpc.symm.trans hq
        · rintro (hq | ⟨_, _, hq⟩) <;> cases hq
      · -- an iterator that searches is one of `iter_from`
        have hwants : ∀ k, r.op.wants k ↔ r.op.bound ≤ k := by
          intro k
          cases ho : r.op with
          | getEntryAt u n => exact absurd ho (hop u n)
          | iter => exact absurd ho (hy.searches (.inr ⟨0, p, hpc⟩))
          | iterFrom u n => exact Iff.rfl
        rw [hd]
        apply hy.found h fun q hq => nomatch hpc.symm.trans hq
        · exact fun c hc => (hwants _).mpr (hq c hc)
        · intro b hb hw c hc
          exact ⟨(hp c hc).1, (hp c hc).2.trans_le ((hwants _).mp hw)⟩
  | head hpc =>
      apply hy.found h fun q hq => nomatch hpc.symm.trans hq
      · intro c _
        rw [hy.heads hpc]
        trivial
      · exact fun _ _ _ _ hc => nomatch hc
  | next c hpc hc => exact hy.pass h hpc hc
  | stop => exact hy

end Reader

/-- An iterator that runs alone yields the entries of level 0. -/
theorem Levels.iter_eq (h : Levels s L) : s.iter = some (s.entriesOf L) := by
  obtain ⟨nodes, hn, hmap⟩ := iterNodes_eq h (h.chain 0 (by decide)) (List.Subset.refl _)
    (h.length_le 0)
  have he := congrArg (List.map fun o => (o.map Node.entry).getD (⟨.empty, 0⟩, .delete)) hmap
  rw [List.map_map, List.map_map] at he
  rw [iter, level0, h.load_eq (by decide) (by simp), Option.bind_some, hn, Option.map_some]
  exact congrArg some he.symm

namespace Shared

variable {st st' : Shared} {order : List (OpId × ListOp × ListAnswer)} {j : ℕ} {op : ReadOp}

/-- A step keeps what the iterator `j` has yielded, and what it still has to. -/
theorem yields_step [Layout] (h : st.Inv L order) {a : SharedAct} (hs : st.step a = some st')
    (hr : ∃ r, st.readers[j]? = some r ∧ r.op = op ∧ r.Yields st.inserts.list L B) :
    ∃ L' order', st'.Inv L' order' ∧
      ∃ r, st'.readers[j]? = some r ∧ r.op = op ∧ r.Yields st'.inserts.list L' B := by
  obtain ⟨r, hj, hop, hy⟩ := hr
  obtain ⟨L', order', h', hm⟩ := inv_step h hs
  refine ⟨L', order', h', ?_⟩
  have hri := h.readers r (List.mem_of_getElem? hj)
  cases hm with
  | insert a g hr => exact ⟨r, hr ▸ hj, hop, hy.grown h.inserts.levels hri g⟩
  | read op' hi hL hr =>
      rw [hi, hL, hr]
      exact ⟨r, (List.getElem?_append_left (List.getElem?_eq_some_iff.mp hj).1).trans hj, hop, hy⟩
  | next k q hk hi hL hr =>
      rw [hi, hL, hr]
      by_cases he : k = j
      · subst he
        cases hk.symm.trans hj
        refine ⟨_, List.getElem?_set_self (List.getElem?_eq_some_iff.mp hj).1,
          (r.op_step _).trans hop, hy.stepped h.inserts.levels ?_⟩
        exact hri.stepped h.inserts.levels h.inserts.low h.inserts.high
      · exact ⟨r, (List.getElem?_set_ne he).trans hj, hop, hy⟩

theorem yields_run [Layout] (h : st.Inv L order) {acts : List SharedAct}
    (hrun : st.run acts = some st')
    (hr : ∃ r, st.readers[j]? = some r ∧ r.op = op ∧ r.Yields st.inserts.list L B) :
    ∃ L' order', st'.Inv L' order' ∧
      ∃ r, st'.readers[j]? = some r ∧ r.op = op ∧ r.Yields st'.inserts.list L' B := by
  induction acts generalizing st L order with
  | nil =>
      cases hrun
      exact ⟨L, order, h, hr⟩
  | cons a acts ih =>
      rw [run, List.foldlM_cons] at hrun
      obtain ⟨st₁, hs, hrun⟩ := Option.bind_eq_some_iff.mp hrun
      obtain ⟨L₁, order₁, h₁, hr₁⟩ := yields_step h hs hr
      exact ih h₁ hrun hr₁

/-- Whatever is inserted meanwhile, an iterator ascends, yields only what it is for and what the list
has, and leaves out nothing that the list had when it was made: of that it has yielded everything up
to its last entry, and in the end all. -/
theorem iterates [Layout] {acts acts' : List SharedAct} (hr : start.run acts = some st)
    (hr' : st.run (.read op :: acts') = some st') :
    ∃ r before after, st'.readers[st.readers.length]? = some r ∧ r.op = op ∧
      st.inserts.list.iter = some before ∧ st'.inserts.list.iter = some after ∧
      Sorted r.seen ∧ (∀ e ∈ r.seen, e ∈ after ∧ op.wants e.1) ∧
      ∀ e ∈ before, op.wants e.1 → (r.pc = .curr none ∨ ∃ x ∈ r.seen, e.1 ≤ x.1) → e ∈ r.seen := by
  obtain ⟨L, order, h⟩ := inv_run inv_start hr
  rw [run, List.foldlM_cons] at hr'
  obtain ⟨st₁, hs, hr'⟩ := Option.bind_eq_some_iff.mp hr'
  cases hs
  have hnew : (st.readers ++ [⟨op, op.start, []⟩])[st.readers.length]? =
      some ⟨op, op.start, []⟩ := List.getElem?_concat_length
  obtain ⟨L', order', h', r, hj, rfl, hy⟩ := yields_run (inv_read h op) hr'
    ⟨_, hnew, rfl, Reader.yields_start op st.inserts.list L⟩
  refine ⟨r, _, _, hj, rfl, h.inserts.levels.iter_eq, h'.inserts.levels.iter_eq, hy.sorted,
    fun e he => ⟨hy.stored he, hy.wanted e he⟩, ?_⟩
  intro e he hw hend
  by_cases hcurr : ∃ p, r.pc = .curr p
  · obtain ⟨p, hp⟩ := hcurr
    rcases (hy.next p hp).covers e he hw with hs | ⟨c, hc, hle⟩
    · exact hs
    · -- the entry is still to come
      rcases hend with hend | ⟨x, hx, hxe⟩
      · cases hp.symm.trans hend
        cases hc
      · exact absurd ((hy.next p hp).above c hc x hx) (not_lt.mpr (hle.trans hxe))
  · rcases hend with hend | ⟨x, hx, -⟩
    · exact absurd ⟨_, hend⟩ hcurr
    · rw [hy.first fun p hp => hcurr ⟨p, hp⟩] at hx
      cases hx

/-- The versions `a` and `c` are inserted while an iterator stands at `b`. -/
def passing : List SharedAct :=
  .next 0 :: .insert (.call ⟨.ascii [0x61], 2⟩ .delete 1) ::
    List.replicate 8 (.insert (.step 1 false)) ++
    .insert (.call ⟨.ascii [0x63], 3⟩ .delete 1) ::
    List.replicate 8 (.insert (.step 2 false)) ++ List.replicate 2 (.next 0)

def onlyB : List SharedAct :=
  .insert (.call ⟨.ascii [0x62], 1⟩ .delete 1) :: List.replicate 8 (.insert (.step 0 false))

theorem iterates_passing :
    ∃ st st' r, @run ⟨64, 8⟩ start onlyB = some st ∧
      @run ⟨64, 8⟩ st (.read .iter :: passing) = some st' ∧ st'.readers[0]? = some r ∧
      r.seen.map (fun e => e.1.seq) = [1, 3] ∧ Sorted r.seen := by
  have hseen : ((@run ⟨64, 8⟩ start onlyB).bind fun st =>
      if st.readers.length = 0 then (@run ⟨64, 8⟩ st (.read .iter :: passing)).map fun st' =>
        st'.readers[0]?.map fun r => r.seen.map fun e => e.1.seq
      else none) = some (some [1, 3]) := by decide +kernel
  obtain ⟨st, hst, hseen⟩ := Option.bind_eq_some_iff.mp hseen
  split_ifs at hseen with hlen
  obtain ⟨st', hst', hseen⟩ := Option.map_eq_some_iff.mp hseen
  obtain ⟨r, -, -, hr, -, -, -, hsorted, -⟩ := @iterates st st' .iter ⟨64, 8⟩ _ _ hst hst'
  rw [hlen] at hr
  rw [hr, Option.map_some, Option.some_inj] at hseen
  exact ⟨st, st', r, hst, hst', hr, hseen, hsorted⟩

end Shared

end SkipList

end LowDB
