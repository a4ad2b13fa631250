import Mathlib.Data.List.Basic
import Mathlib.Logic.Function.Basic
import Mathlib.Order.Lattice
import Mathlib.Tactic.Common

/-! # Singly linked chains

A linked structure is given by its successor function `next : Option α → Option α`: from `none`, the
head, or from a node to the next node, or to `none` at the end.  `Chain next p xs` says that the
nodes behind `p` are `xs`, up to the end.

In a chain that ascends by a key, the nodes below a key and the others are cut by a link
(`Chain.cut`), and a node with that key is linked in by changing one successor (`Chain.link`). -/

namespace Chains

variable {α κ : Type} {next next' : Option α → Option α} {p q : Option α} {a b : α}
  {xs ys pre post : List α}

/-- The nodes that follow `p` are `xs`. -/
def Chain (next : Option α → Option α) : Option α → List α → Prop
  | p, [] => next p = none
  | p, a :: as => next p = some a ∧ Chain next (some a) as

namespace Chain

theorem next_eq (h : Chain next p xs) : next p = xs.head? := by
  cases xs with
  | nil => exact h
  | cons a as => exact h.1

/-- Only the successors of `p` and of the nodes matter. -/
theorem congr (h : Chain next p xs) (hp : next' p = next p)
    (hxs : ∀ b ∈ xs, next' (some b) = next (some b)) : Chain next' p xs := by
  induction xs generalizing p with
  | nil => exact hp.trans h
  | cons a as ih =>
      exact ⟨hp.trans h.1, ih h.2 (hxs a List.mem_cons_self)
        fun b hb => hxs b (List.mem_cons_of_mem a hb)⟩

/-- The successor function determines the nodes. -/
theorem unique (h : Chain next p xs) (h' : Chain next p ys) : xs = ys := by
  induction xs generalizing p ys with
  | nil =>
      cases ys with
      | nil => rfl
      | cons b bs => exact absurd (h.symm.trans h'.1) (by simp)
  | cons a as ih =>
      cases ys with
      | nil => exact absurd (h.1.symm.trans h') (by simp)
      | cons b bs =>
          obtain rfl : a = b := Option.some_inj.mp (h.1.symm.trans h'.1)
          rw [ih h.2 h'.2]

theorem of_append (h : Chain next p (pre ++ a :: post)) : Chain next (some a) post := by
  induction pre generalizing p with
  | nil => exact h.2
  | cons b pre ih => exact ih h.2

/-- The nodes behind a node of the chain are a suffix of the chain. -/
theorem exists_suffix (h : Chain next none xs) (hq : ∀ b ∈ q, b ∈ xs) :
    ∃ ys, ys <:+ xs ∧ Chain next q ys := by
  cases q with
  | none => exact ⟨xs, List.suffix_refl xs, h⟩
  | some b =>
      obtain ⟨pre, post, rfl⟩ := List.append_of_mem (hq b rfl)
      exact ⟨post, ⟨pre ++ [b], by simp⟩, h.of_append⟩

/-- The successor of a node of the chain is in the chain. -/
theorem mem_of_next (h : Chain next none xs) (hq : ∀ b ∈ q, b ∈ xs) (ha : next q = some a) :
    a ∈ xs := by
  obtain ⟨ys, hys, hc⟩ := h.exists_suffix hq
  exact hys.subset (List.mem_of_mem_head? (hc.next_eq.symm.trans ha))

end Chain

/-! ### Linking a node in -/

section link
variable [DecidableEq α]

/-- The node `a` comes between `q` and its successor. -/
def splice (next : Option α → Option α) (q : Option α) (a : α) : Option α → Option α :=
  Function.update (Function.update next (some a) (next q)) q (some a)

theorem splice_self (next : Option α → Option α) (q : Option α) (a : α) :
    splice next q a q = some a := Function.update_self ..

theorem splice_new (h : q ≠ some a) : splice next q a (some a) = next q := by
  rw [splice, Function.update_of_ne h.symm, Function.update_self]

theorem splice_of_ne (hq : p ≠ q) (ha : p ≠ some a) : splice next q a p = next p := by
  rw [splice, Function.update_of_ne hq, Function.update_of_ne ha]

/-- Linking behind the last node of `pre`, or behind `p` if there is none. -/
theorem Chain.splice (h : Chain next p (pre ++ post)) (hnd : (pre ++ post).Nodup)
    (hp : ∀ b ∈ p, b ∉ pre ++ post) (ha : a ∉ pre ++ post) (hap : p ≠ some a) :
    Chain (Chains.splice next (pre.getLast?.or p) a) p (pre ++ a :: post) := by
  induction pre generalizing p with
  | nil =>
      rw [List.getLast?_nil, Option.none_or]
      rw [List.nil_append] at h hp ha
      refine ⟨splice_self .., ?_⟩
      cases post with
      | nil => exact (splice_new hap).trans h
      | cons b post =>
          have hne : ∀ c ∈ b :: post, Chains.splice next p a (some c) = next (some c) := by
            intro c hc
            refine splice_of_ne (fun he => hp c he.symm hc) fun he => ha ?_
            rwa [← Option.some_inj.mp he]
          exact ⟨(splice_new hap).trans h.1, h.2.congr (hne b List.mem_cons_self)
            fun c hc => hne c (List.mem_cons_of_mem b hc)⟩
  | cons c pre ih =>
      obtain ⟨hc, hnd'⟩ := List.nodup_cons.mp hnd
      have hlast : (c :: pre).getLast?.or p = pre.getLast?.or (some c) := by
        cases pre with
        | nil => rfl
        | cons d pre => simp [List.getLast?_cons]
      have hmem : ∀ b ∈ pre.getLast?.or (some c), b ∈ c :: pre := by
        intro b hb
        cases hl : pre.getLast? with
        | none => simp_all
        | some d =>
            rw [hl] at hb
            exact List.mem_cons_of_mem c (List.mem_of_getLast? (hl.trans hb))
      rw [hlast]
      refine ⟨?_, ih h.2 hnd' (?_) (fun hm => ha (List.mem_cons_of_mem c hm)) ?_⟩
      · rw [splice_of_ne (fun he => ?_) hap]
        · exact h.1
        · cases hl : pre.getLast?.or (some c) with
          | none => simp_all
          | some d => exact hp d (he.trans hl) (List.mem_append_left _ (hmem d hl))
      · intro b hb
        cases hb
        exact hc
      · rintro ⟨⟩
        exact ha List.mem_cons_self

end link

/-! ### Chains that ascend by a key -/

section ascending
variable [LinearOrder κ] {key : α → κ} {k : κ}

/-- The key of `q` is below `k` and `q` is in the chain; `none` is the head. -/
def Below (key : α → κ) (xs : List α) (k : κ) (q : Option α) : Prop := ∀ b ∈ q, b ∈ xs ∧ key b < k

/-- The key of `q` is `k` or above and `q` is in the chain; `none` is the end. -/
def NotBelow (key : α → κ) (xs : List α) (k : κ) (q : Option α) : Prop :=
  ∀ b ∈ q, b ∈ xs ∧ k ≤ key b

theorem Below.mono (h : Below key xs k q) (hsub : xs ⊆ ys) : Below key ys k q :=
  fun b hb => ⟨hsub (h b hb).1, (h b hb).2⟩

theorem nodup_of_ascending (hs : xs.Pairwise fun a b => key a < key b) : xs.Nodup :=
  hs.imp fun h he => absurd h (by rw [he]; exact lt_irrefl _)

/-- A node of an ascending chain is determined by its key. -/
theorem eq_of_key (hs : xs.Pairwise fun a b => key a < key b) (ha : a ∈ xs) (hb : b ∈ xs)
    (hk : key a = key b) : a = b := by
  induction xs with
  | nil => cases ha
  | cons x xs ih =>
      obtain ⟨hx, hxs⟩ := List.pairwise_cons.mp hs
      rcases List.mem_cons.mp ha with rfl | ha'
      · rcases List.mem_cons.mp hb with rfl | hb'
        · rfl
        · exact absurd hk (hx b hb').ne
      · rcases List.mem_cons.mp hb with rfl | hb'
        · exact absurd hk (hx a ha').ne'
        · exact ih hxs ha' hb'

/-- Of two ascending lists the one that contains less is a subsequence. -/
theorem sublist_of_subset (hx : xs.Pairwise fun a b => key a < key b)
    (hy : ys.Pairwise fun a b => key a < key b) (h : xs ⊆ ys) : xs.Sublist ys := by
  induction ys generalizing xs with
  | nil => rw [List.subset_nil.mp h]
  | cons y ys ih =>
      obtain ⟨hlt, hys⟩ := List.pairwise_cons.mp hy
      cases xs with
      | nil => exact List.nil_sublist _
      | cons x xs =>
          obtain ⟨hltx, hxs⟩ := List.pairwise_cons.mp hx
          obtain ⟨hxy, hsub⟩ := List.cons_subset.mp h
          rcases List.mem_cons.mp hxy with rfl | hxy
          · refine (ih hxs hys fun z hz => ?_).cons_cons x
            rcases List.mem_cons.mp (hsub hz) with rfl | hz'
            · exact absurd (hltx z hz) (lt_irrefl _)
            · exact hz'
          · refine (ih hx hys fun z hz => ?_).cons y
            have hle : key y < key z := by
              rcases List.mem_cons.mp hz with rfl | hz
              · exact hlt z hxy
              · exact (hlt x hxy).trans (hltx z hz)
            rcases List.mem_cons.mp (h hz) with rfl | hz'
            · exact absurd hle (lt_irrefl _)
            · exact hz'

/-- A link from below `k` to `k` or above cuts the chain at `k`. -/
theorem Chain.cut (h : Chain next none xs) (hs : xs.Pairwise fun a b => key a < key b)
    (hq : Below key xs k q) (hn : ∀ b ∈ next q, k ≤ key b) :
    ∃ pre post, xs = pre ++ post ∧ q = pre.getLast? ∧ Chain next q post ∧
      (∀ x ∈ pre, key x < k) ∧ ∀ x ∈ post, k ≤ key x := by
  cases q with
  | none =>
      refine ⟨[], xs, rfl, rfl, h, fun _ hx => absurd hx List.not_mem_nil, ?_⟩
      cases xs with
      | nil => exact fun _ hx => absurd hx List.not_mem_nil
      | cons a as =>
          have ha := hn a h.1
          intro x hx
          rcases List.mem_cons.mp hx with rfl | hx
          · exact ha
          · exact ha.trans ((List.pairwise_cons.mp hs).1 x hx).le
  | some b =>
      obtain ⟨hb, hbk⟩ := hq b rfl
      obtain ⟨pre, post, rfl⟩ := List.append_of_mem hb
      obtain ⟨_, hpost, hcross⟩ := List.pairwise_append.mp hs
      have hc := h.of_append
      refine ⟨pre ++ [b], post, by simp, by simp, hc, ?_, ?_⟩
      · intro x hx
        rcases List.mem_append.mp hx with hx | hx
        · exact (hcross x hx b List.mem_cons_self).trans hbk
        · rwa [List.mem_singleton.mp hx]
      · cases post with
        | nil => exact fun _ hx => absurd hx List.not_mem_nil
        | cons a as =>
            have ha := hn a hc.1
            intro x hx
            rcases List.mem_cons.mp hx with rfl | hx
            · exact ha
            · exact ha.trans ((List.pairwise_cons.mp (List.pairwise_cons.mp hpost).2).1 x hx).le

/-- The first node at `k` or above has the key `k` exactly when a node of the chain has. -/
theorem Chain.exists_key_iff (h : Chain next none xs) (hs : xs.Pairwise fun a b => key a < key b)
    (hq : Below key xs k q) (hn : ∀ b ∈ next q, k ≤ key b) :
    (∃ b ∈ next q, key b = k) ↔ ∃ b ∈ xs, key b = k := by
  obtain ⟨pre, post, rfl, -, hc, hpre, hpost⟩ := h.cut hs hq hn
  constructor
  · rintro ⟨b, hb, hk⟩
    refine ⟨b, List.mem_append_right _ ?_, hk⟩
    exact List.mem_of_mem_head? (hc.next_eq.symm.trans hb)
  · rintro ⟨b, hb, rfl⟩
    rcases List.mem_append.mp hb with hb | hb
    · exact absurd (hpre b hb) (lt_irrefl _)
    · cases post with
      | nil => cases hb
      | cons a as =>
          refine ⟨a, hc.1, le_antisymm ?_ (hpost a List.mem_cons_self)⟩
          rcases List.mem_cons.mp hb with rfl | hb
          · exact le_rfl
          · exact ((List.pairwise_cons.mp (List.pairwise_append.mp hs).2.1).1 b hb).le

/-- The successor of a node has a greater key. -/
theorem Chain.lt_of_next (h : Chain next none xs) (hs : xs.Pairwise fun a b => key a < key b)
    (hb : b ∈ xs) (ha : next (some b) = some a) : key b < key a := by
  obtain ⟨pre, post, rfl⟩ := List.append_of_mem hb
  have hhead := h.of_append.next_eq.symm.trans ha
  have hpost := (List.pairwise_append.mp hs).2.1
  exact (List.pairwise_cons.mp hpost).1 a (List.mem_of_mem_head? hhead)

/-- A node that lies above `q` is at or behind the successor of `q`. -/
theorem Chain.exists_next_le (h : Chain next none xs) (hs : xs.Pairwise fun a b => key a < key b)
    (ha : a ∈ xs) (hq : Below key xs (key a) q) : ∃ b ∈ next q, key b ≤ key a := by
  obtain ⟨pre, post, rfl, hc, hmem⟩ : ∃ pre post, xs = pre ++ post ∧ Chain next q post ∧ a ∈ post := by
    cases q with
    | none => exact ⟨[], xs, rfl, h, ha⟩
    | some b =>
        obtain ⟨hb, hlt⟩ := hq b rfl
        obtain ⟨pre, post, rfl⟩ := List.append_of_mem hb
        refine ⟨pre ++ [b], post, by simp, h.of_append, ?_⟩
        rcases List.mem_append.mp ha with ha | ha
        · exact absurd hlt ((List.pairwise_append.mp hs).2.2 a ha b List.mem_cons_self).asymm
        · refine (List.mem_cons.mp ha).resolve_left ?_
          rintro rfl
          exact lt_irrefl _ hlt
  cases post with
  | nil => cases hmem
  | cons b post =>
      refine ⟨b, hc.1, ?_⟩
      rcases List.mem_cons.mp hmem with rfl | hmem
      · exact le_rfl
      · exact ((List.pairwise_cons.mp (List.pairwise_append.mp hs).2.1).1 a hmem).le

/-- A node is linked in between its neighbours. -/
theorem Chain.link [DecidableEq α] (h : Chain next none xs)
    (hs : xs.Pairwise fun a b => key a < key b) (hq : Below key xs (key a) q)
    (hn : ∀ b ∈ next q, key a < key b) :
    ∃ xs', Chain (Chains.splice next q a) none xs' ∧ (xs'.Pairwise fun a b => key a < key b) ∧
      xs'.Perm (a :: xs) := by
  obtain ⟨pre, post, rfl, rfl, hc, hpre, hpost⟩ := h.cut hs hq fun b hb => (hn b hb).le
  have hpost' : ∀ x ∈ post, key a < key x := by
    cases post with
    | nil => exact fun _ hx => absurd hx List.not_mem_nil
    | cons b post =>
        have hb := hn b hc.1
        intro x hx
        rcases List.mem_cons.mp hx with rfl | hx
        · exact hb
        · exact hb.trans
            ((List.pairwise_cons.mp (List.pairwise_append.mp hs).2.1).1 x hx)
  have ha : a ∉ pre ++ post := by
    intro hm
    rcases List.mem_append.mp hm with hm | hm
    · exact lt_irrefl _ (hpre a hm)
    · exact lt_irrefl _ (hpost' a hm)
  have hspl := h.splice (nodup_of_ascending hs) (fun _ hb => nomatch hb) ha (fun he => nomatch he)
  rw [Option.or_none] at hspl
  refine ⟨pre ++ a :: post, hspl, ?_, List.perm_middle⟩
  obtain ⟨hsp, hso, hcross⟩ := List.pairwise_append.mp hs
  refine List.pairwise_append.mpr ⟨hsp, List.pairwise_cons.mpr ⟨hpost', hso⟩, ?_⟩
  intro x hx y hy
  rcases List.mem_cons.mp hy with rfl | hy
  · exact hpre x hx
  · exact hcross x hx y hy

end ascending

end Chains
