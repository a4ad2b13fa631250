import Mathlib.Algebra.GroupWithZero.Nat
import Mathlib.Data.List.GetD
import Mathlib.Data.List.Lemmas
import Mathlib.Order.Lattice
import Mathlib.Tactic.Common

/-! # Merging sorted lists

`Merge key ls out`: the list `out` is a merge of the lists `ls` that always takes the head with the
least key, from the first list among equals.  When the lists are sorted, so is the merge
(`Merge.sorted`), and it is stable: the elements with one key stand in the order of the lists
(`Merge.filter_eq`), and those of one list in its order (`Merge.tags`). -/

namespace Merging

variable {α κ : Type} [LinearOrder κ] {key : α → κ} {ls pre post : List (List α)}
  {out l : List α} {a b : α}

/-- The heads of `ls` satisfy `p`. -/
def Heads (p : α → Prop) (ls : List (List α)) : Prop := ∀ l ∈ ls, ∀ a ∈ l.head?, p a

/-- The list `out` merges `ls`. -/
inductive Merge (key : α → κ) : List (List α) → List α → Prop where
  | nil {ls : List (List α)} (h : ∀ l ∈ ls, l = []) : Merge key ls []
  | cons {pre post : List (List α)} {a : α} {l out : List α}
      (hpre : Heads (fun b => key a < key b) pre) (hpost : Heads (fun b => key a ≤ key b) post)
      (h : Merge key (pre ++ l :: post) out) : Merge key (pre ++ (a :: l) :: post) (a :: out)

/-- Every list is sorted by key. -/
def Sorted (key : α → κ) (ls : List (List α)) : Prop :=
  ∀ l ∈ ls, l.Pairwise fun a b => key a ≤ key b

theorem Sorted.of_cons (h : Sorted key (pre ++ (a :: l) :: post)) :
    Sorted key (pre ++ l :: post) := by
  intro l' hl'
  simp only [List.mem_append, List.mem_cons] at hl'
  rcases hl' with hl' | rfl | hl'
  · exact h l' (by simp [hl'])
  · exact (List.pairwise_cons.mp (h (a :: l') (by simp))).2
  · exact h l' (by simp [hl'])

/-- In sorted lists what holds of the heads, and of greater keys, holds of all elements. -/
theorem Heads.all {p : κ → Prop} (hp : ∀ k k', k ≤ k' → p k → p k') (hs : Sorted key ls)
    (h : Heads (fun b => p (key b)) ls) : ∀ l ∈ ls, ∀ b ∈ l, p (key b) := by
  intro l hl b hb
  obtain ⟨c, cs, rfl⟩ := List.exists_cons_of_ne_nil (List.ne_nil_of_mem hb)
  have hc : p (key c) := h _ hl c rfl
  rcases List.mem_cons.mp hb with rfl | hb
  · exact hc
  · exact hp _ _ ((List.pairwise_cons.mp (hs _ hl)).1 b hb) hc

theorem exists_of_mem_getD {n : ℕ} (h : a ∈ ls.getD n []) : ∃ l ∈ ls, a ∈ l := by
  rw [List.getD_eq_getElem?_getD] at h
  cases hn : ls[n]? with
  | none =>
      rw [hn] at h
      cases h
  | some l => exact ⟨l, List.mem_of_getElem? hn, by rwa [hn] at h⟩

namespace Merge

/-- Taking the head of the list with index `i`. -/
theorem cons_set {i : ℕ} (hi : ls[i]? = some (a :: l))
    (hpre : ∀ j < i, ∀ b m, ls[j]? = some (b :: m) → key a < key b)
    (hpost : ∀ j, i < j → ∀ b m, ls[j]? = some (b :: m) → key a ≤ key b)
    (h : Merge key (ls.set i l) out) : Merge key ls (a :: out) := by
  obtain ⟨hlt, hget⟩ := List.getElem?_eq_some_iff.mp hi
  have hsplit : ls = ls.take i ++ (a :: l) :: ls.drop (i + 1) := by
    conv_lhs => rw [← List.take_append_drop i ls, List.drop_eq_getElem_cons hlt, hget]
  rw [List.set_eq_take_append_cons_drop, if_pos hlt] at h
  rw [hsplit]
  refine .cons (fun m hm b hb => ?_) (fun m hm b hb => ?_) h
  · obtain ⟨j, hj⟩ := List.mem_iff_getElem?.mp hm
    obtain ⟨tl, rfl⟩ := List.head?_eq_some_iff.mp hb
    obtain ⟨hji, -⟩ := List.getElem?_eq_some_iff.mp hj
    have hji : j < i := by
      rw [List.length_take] at hji
      omega
    exact hpre j hji b tl (by rwa [List.getElem?_take_of_lt hji] at hj)
  · obtain ⟨j, hj⟩ := List.mem_iff_getElem?.mp hm
    obtain ⟨tl, rfl⟩ := List.head?_eq_some_iff.mp hb
    rw [List.getElem?_drop] at hj
    exact hpost _ (by omega) b tl hj

theorem perm (h : Merge key ls out) : out.Perm ls.flatten := by
  induction h with
  | nil h =>
      rw [List.flatten_eq_nil_iff.mpr h]
  | cons hpre hpost h ih =>
      apply (ih.cons _).trans
      simpa using List.perm_middle.symm

theorem mem_iff (h : Merge key ls out) : a ∈ out ↔ ∃ l ∈ ls, a ∈ l := by
  rw [h.perm.mem_iff, List.mem_flatten]

/-- A merge of sorted lists is sorted. -/
theorem sorted (h : Merge key ls out) (hs : Sorted key ls) :
    out.Pairwise fun a b => key a ≤ key b := by
  induction h with
  | nil => exact List.Pairwise.nil
  | @cons pre post a l out hpre hpost h ih =>
      have hs' := hs.of_cons
      refine List.pairwise_cons.mpr ⟨fun b hb => ?_, ih hs'⟩
      obtain ⟨l', hl', hb⟩ := h.mem_iff.mp hb
      have hsub : ∀ m ∈ pre ++ post, m ∈ pre ++ (a :: l) :: post := by
        intro m hm
        rcases List.mem_append.mp hm with hm | hm <;> simp [hm]
      rcases List.mem_append.mp hl' with hl' | hl'
      · have hp : Sorted key pre := fun m hm => hs m (hsub m (List.mem_append_left _ hm))
        exact (hpre.all (p := fun k => key a < k) (fun _ _ h h' => h'.trans_le h) hp l' hl' b hb).le
      · rcases List.mem_cons.mp hl' with rfl | hl'
        · exact (List.pairwise_cons.mp (hs (a :: l') (by simp))).1 b hb
        · have hp : Sorted key post := fun m hm => hs m (hsub m (List.mem_append_right _ hm))
          exact hpost.all (p := fun k => key a ≤ k) (fun _ _ h h' => h'.trans h) hp l' hl' b hb

/-- A merge of sorted lists is stable. -/
theorem filter_eq (h : Merge key ls out) (hs : Sorted key ls) (k : κ) :
    out.filter (fun a => key a = k) = ls.flatten.filter fun a => key a = k := by
  induction h with
  | nil h => rw [List.flatten_eq_nil_iff.mpr h]
  | @cons pre post a l out hpre hpost h ih =>
      have hi := ih hs.of_cons
      simp only [List.flatten_append, List.flatten_cons, List.filter_append] at hi ⊢
      by_cases hk : key a = k
      · -- the lists in front have only greater keys
        have hnil : pre.flatten.filter (fun b => key b = k) = [] := by
          apply List.filter_eq_nil_iff.mpr
          intro b hb
          obtain ⟨m, hm, hb⟩ := List.mem_flatten.mp hb
          have hp : Sorted key pre := fun m hm => hs m (List.mem_append_left _ hm)
          have hlt := hpre.all (p := fun k => key a < k) (fun _ _ h h' => h'.trans_le h) hp m hm b hb
          simpa [← hk] using hlt.ne'
        rw [hnil, List.nil_append] at hi ⊢
        rw [List.filter_cons_of_pos (by simpa using hk), hi,
          List.filter_cons_of_pos (by simpa using hk), List.cons_append]
      · rw [List.filter_cons_of_neg (by simpa using hk), hi,
          List.filter_cons_of_neg (by simpa using hk)]

/-- The list each element was taken from: the elements of one list keep their order, and equal keys
come in the order of the lists. -/
theorem tags (h : Merge key ls out) (hs : Sorted key ls) :
    ∃ tagged : List (ℕ × α), tagged.map Prod.snd = out ∧
      (∀ i, (tagged.filter fun x => x.1 = i).map Prod.snd = ls.getD i []) ∧
      tagged.Pairwise fun x y => key x.2 < key y.2 ∨ key x.2 = key y.2 ∧ x.1 ≤ y.1 := by
  induction h with
  | @nil ls h =>
      refine ⟨[], rfl, fun i => ?_, List.Pairwise.nil⟩
      rw [List.getD_eq_getElem?_getD]
      cases hi : ls[i]? with
      | none => rfl
      | some l => exact (h l (List.mem_of_getElem? hi)).symm
  | @cons pre post a l out hpre hpost h ih =>
      obtain ⟨tagged, hmap, hfilter, hpair⟩ := ih hs.of_cons
      have hleft : ∀ i, i < pre.length → ∀ c, (pre ++ c :: post).getD i [] = pre.getD i [] :=
        fun i hi c => List.getD_append _ _ _ _ hi
      have hright : ∀ i, pre.length < i → ∀ c,
          (pre ++ c :: post).getD i [] = post.getD (i - pre.length - 1) [] := by
        intro i hi c
        obtain ⟨n, rfl⟩ : ∃ n, i = pre.length + (n + 1) := ⟨i - pre.length - 1, by omega⟩
        rw [List.getD_append_right _ _ _ _ (by omega)]
        simp
      have hmid : ∀ c, (pre ++ c :: post).getD pre.length [] = c := by
        intro c
        rw [List.getD_append_right _ _ _ _ le_rfl, Nat.sub_self, List.getD_cons_zero]
      refine ⟨(pre.length, a) :: tagged, by rw [List.map_cons, hmap], ?_, ?_⟩
      · intro i
        rcases lt_trichotomy i pre.length with hi | rfl | hi
        · rw [List.filter_cons_of_neg (by simpa using hi.ne'), hfilter, hleft i hi, hleft i hi]
        · rw [List.filter_cons_of_pos (by simp), List.map_cons, hfilter, hmid, hmid]
        · rw [List.filter_cons_of_neg (by simpa using hi.ne), hfilter, hright i hi, hright i hi]
      · refine List.pairwise_cons.mpr ⟨fun y hy => ?_, hpair⟩
        -- `y` is an element of the list with its tag
        have hmem : y.2 ∈ (pre ++ l :: post).getD y.1 [] := by
          rw [← hfilter]
          exact List.mem_map_of_mem (List.mem_filter.mpr ⟨hy, by simp⟩)
        rcases lt_trichotomy y.1 pre.length with hi | hi | hi
        · rw [hleft _ hi] at hmem
          obtain ⟨m, hm, hy'⟩ := exists_of_mem_getD hmem
          have hp : Sorted key pre := fun m hm => hs m (List.mem_append_left _ hm)
          exact .inl (hpre.all (p := fun k => key a < k) (fun _ _ h h' => h'.trans_le h) hp m hm _ hy')
        · rw [hi, hmid] at hmem
          have hle := (List.pairwise_cons.mp (hs (a :: l) (by simp))).1 _ hmem
          exact hle.lt_or_eq.imp_right fun heq => ⟨heq, hi.ge⟩
        · rw [hright _ hi] at hmem
          obtain ⟨m, hm, hy'⟩ := exists_of_mem_getD hmem
          have hp : Sorted key post :=
            fun m hm => hs m (List.mem_append_right _ (List.mem_cons_of_mem _ hm))
          have hle := hpost.all (p := fun k => key a ≤ k) (fun _ _ h h' => h'.trans h) hp m hm _ hy'
          exact hle.lt_or_eq.imp_right fun heq => ⟨heq, hi.le⟩

theorem length_le (h : Merge key ls out) : out.length ≤ (ls.map List.length).sum := by
  rw [h.perm.length_eq, List.length_flatten]

end Merge

end Merging
