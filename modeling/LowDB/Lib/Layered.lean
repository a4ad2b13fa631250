import Mathlib.Data.Set.Basic
import Mathlib.Data.Nat.Find
import Mathlib.Data.List.Basic
import Mathlib.Data.List.Forall2
import Mathlib.Tactic.Common

/-! # Layered multi-version stores

A `Layer` is a set of versions `(k, n, v)`: the value `v` of the key `k`, written at time `n`.
`Answers L k s o` says what a layer knows about `k` at time `s`: its newest version of `k` written
by then, or nothing.

A store keeps its versions in a list of layers and answers a read from the first layer that knows
anything (`Search`).  It is right about `k` at `s`, against the set `H` of all versions ever
written, when the search finds what `H` answers (`Reads`).  The lemmas say which changes of the
list keep it right: adding versions newer than `s` (`Reads.congr`), an empty layer
(`search_insert_of_silent`), a layer below one that contains it (`search_insert_below`), and
leaving of a layer only the newest version of each key (`search_remove_above_top`), which is
harmless where the dropped versions are not the ones read.  `ReadsLast` is the same for a reader of
the last version of every key.

`Over` is the order under which a search is right at every time: no layer holds a version that
should have come before one in front of it. -/

namespace Layered

variable {K V : Type*}

/-- A set of versions `(k, n, v)`: key, time, value. -/
abbrev Layer (K V : Type*) := Set (K × ℕ × V)

def Holds (L : Layer K V) (k : K) (n : ℕ) : Prop := ∃ v, (k, n, v) ∈ L

/-- `n` is the time of the newest version of `k` in `L` written by time `s`. -/
def Newest (L : Layer K V) (k : K) (s n : ℕ) : Prop :=
  Holds L k n ∧ n ≤ s ∧ ∀ m, Holds L k m → m ≤ s → m ≤ n

/-- What `L` knows about `k` at time `s`. -/
def Answers (L : Layer K V) (k : K) (s : ℕ) : Option (ℕ × V) → Prop
  | some (n, v) => (k, n, v) ∈ L ∧ Newest L k s n
  | none => ∀ n, Holds L k n → s < n

/-- The answer of the first layer that has one. -/
def Search : List (Layer K V) → K → ℕ → Option (ℕ × V) → Prop
  | [], _, _, o => o = none
  | L :: Ls, k, s, o =>
    (∃ x, o = some x ∧ Answers L k s (some x)) ∨ (Answers L k s none ∧ Search Ls k s o)

/-- A version has one value. -/
def Functional (L : Layer K V) : Prop := ∀ k n v w, (k, n, v) ∈ L → (k, n, w) ∈ L → v = w

/-- The search through `Ls` finds what the history `H` answers. -/
def Reads (Ls : List (Layer K V)) (H : Layer K V) (k : K) (s : ℕ) : Prop :=
  ∀ o, Answers H k s o → Search Ls k s o

variable {L L' M T H H' : Layer K V} {Ls Ls' Fs Ts : List (Layer K V)} {k : K} {s s' n m : ℕ}
  {v w : V} {x : ℕ × V} {o o' : Option (ℕ × V)}

theorem Holds.mono (h : Holds L k n) (hsub : L ⊆ L') : Holds L' k n :=
  h.imp fun _ hv => hsub hv

/-! ### Answers -/

theorem Newest.unique (h : Newest L k s n) (h' : Newest L k s m) : n = m :=
  le_antisymm (h'.2.2 n h.1 h.2.1) (h.2.2 m h'.1 h'.2.1)

theorem Answers.mem (h : Answers L k s (some (n, v))) : (k, n, v) ∈ L := h.1

theorem Answers.le (h : Answers L k s (some (n, v))) : n ≤ s := h.2.2.1

/-- A layer does not both know and not know. -/
theorem Answers.not_none (h : Answers L k s (some x)) : ¬ Answers L k s none :=
  fun h' => h.2.2.1.not_gt (h' x.1 h.2.1)

theorem Answers.unique (hf : Functional L) (h : Answers L k s o) (h' : Answers L k s o') :
    o = o' := by
  cases o with
  | none =>
      cases o' with
      | none => rfl
      | some y => exact absurd h h'.not_none
  | some x =>
      cases o' with
      | none => exact absurd h' h.not_none
      | some y =>
          obtain ⟨n, v⟩ := x
          obtain ⟨m, w⟩ := y
          obtain rfl := h.2.unique h'.2
          rw [hf k n v w h.1 h'.1]

/-- A layer always has an answer: the times up to `s` are finitely many. -/
theorem exists_answers (L : Layer K V) (k : K) (s : ℕ) : ∃ o, Answers L k s o := by
  classical
  by_cases h : ∃ n, n ≤ s ∧ Holds L k n
  · obtain ⟨n, hn, hL⟩ := h
    obtain ⟨v, hv⟩ : Holds L k (Nat.findGreatest (Holds L k) s) :=
      Nat.findGreatest_spec (P := Holds L k) hn hL
    exact ⟨some (_, v), hv, ⟨v, hv⟩, Nat.findGreatest_le s,
      fun m hm hle => Nat.le_findGreatest hle hm⟩
  · push Not at h
    exact ⟨none, fun n hn => Nat.lt_of_not_le fun hle => h n hle hn⟩

/-- Only the versions of `k` written by time `s` matter. -/
theorem Answers.congr (h : ∀ n v, n ≤ s → ((k, n, v) ∈ L ↔ (k, n, v) ∈ L'))
    (ha : Answers L k s o) : Answers L' k s o := by
  have hh : ∀ n, n ≤ s → (Holds L k n ↔ Holds L' k n) :=
    fun n hn => exists_congr fun v => h n v hn
  cases o with
  | none =>
      intro n hn
      by_contra hle
      have hle := Nat.le_of_not_lt hle
      exact hle.not_gt (ha n ((hh n hle).mpr hn))
  | some x =>
      obtain ⟨n, v⟩ := x
      obtain ⟨hv, hn, hle, hmax⟩ := ha
      exact ⟨(h n v hle).mp hv, (hh n hle).mp hn, hle,
        fun m hm hms => hmax m ((hh m hms).mpr hm) hms⟩

/-- Between two times without a version of `k` the answer does not change. -/
theorem answers_later (h : ∀ n, Holds L k n → n ≤ s' → n ≤ s) (hs : s ≤ s') :
    Answers L k s' o ↔ Answers L k s o := by
  cases o with
  | none =>
      constructor
      · exact fun ha n hn => hs.trans_lt (ha n hn)
      · exact fun ha n hn => Nat.lt_of_not_le fun hle => (ha n hn).not_ge (h n hn hle)
  | some x =>
      obtain ⟨n, v⟩ := x
      constructor
      · rintro ⟨hv, hn, hle, hmax⟩
        exact ⟨hv, hn, h n hn hle, fun m hm hms => hmax m hm (hms.trans hs)⟩
      · rintro ⟨hv, hn, hle, hmax⟩
        exact ⟨hv, hn, hle.trans hs, fun m hm hms => hmax m hm (h m hm hms)⟩

theorem answers_none_of_subset (hsub : T ⊆ M) (h : Answers M k s none) : Answers T k s none :=
  fun n hn => h n (hn.mono hsub)

/-! ### Searches -/

/-- What a search finds is a version of one of the layers. -/
theorem Search.mem (h : Search Ls k s (some (n, v))) : ∃ L ∈ Ls, (k, n, v) ∈ L ∧ n ≤ s := by
  induction Ls with
  | nil => cases h
  | cons L Ls ih =>
      rcases h with ⟨x, hx, ha⟩ | ⟨_, h⟩
      · cases hx
        exact ⟨L, List.mem_cons_self, ha.mem, ha.le⟩
      · obtain ⟨L', hL', h⟩ := ih h
        exact ⟨L', List.mem_cons_of_mem _ hL', h⟩

theorem Search.unique (hf : ∀ L ∈ Ls, Functional L) (h : Search Ls k s o)
    (h' : Search Ls k s o') : o = o' := by
  induction Ls with
  | nil => rw [h, h']
  | cons L Ls ih =>
      have hL := hf L List.mem_cons_self
      rcases h with ⟨x, rfl, hx⟩ | ⟨hn, h⟩
      · rcases h' with ⟨y, rfl, hy⟩ | ⟨hn', _⟩
        · exact hx.unique hL hy
        · exact absurd hn' hx.not_none
      · rcases h' with ⟨y, rfl, hy⟩ | ⟨_, h'⟩
        · exact absurd hn hy.not_none
        · exact ih (fun L hL => hf L (List.mem_cons_of_mem _ hL)) h h'

/-- Only the versions of `k` written by time `s` matter. -/
theorem Search.congr
    (h : List.Forall₂ (fun L L' => ∀ n v, n ≤ s → ((k, n, v) ∈ L ↔ (k, n, v) ∈ L')) Ls Ls')
    (hs : Search Ls k s o) : Search Ls' k s o := by
  induction h with
  | nil => exact hs
  | cons hL _ ih =>
      rcases hs with ⟨x, rfl, hx⟩ | ⟨hn, hs⟩
      · exact .inl ⟨x, rfl, hx.congr hL⟩
      · exact .inr ⟨hn.congr hL, ih hs⟩

/-- Between two times without a version of `k` in any layer a search does not change. -/
theorem search_later (h : ∀ L ∈ Ls, ∀ n, Holds L k n → n ≤ s' → n ≤ s) (hs : s ≤ s') :
    Search Ls k s' o ↔ Search Ls k s o := by
  induction Ls with
  | nil => rfl
  | cons L Ls ih =>
      have hL := h L List.mem_cons_self
      simp only [Search, answers_later hL hs,
        ih fun L hL => h L (List.mem_cons_of_mem _ hL)]

theorem search_append_of_silent (h : ∀ L ∈ Fs, Answers L k s none) :
    Search (Fs ++ Ls) k s o ↔ Search Ls k s o := by
  induction Fs with
  | nil => rfl
  | cons F Fs ih =>
      have hF := h F List.mem_cons_self
      have ih := ih fun L hL => h L (List.mem_cons_of_mem _ hL)
      constructor
      · rintro (⟨x, rfl, hx⟩ | ⟨_, hs⟩)
        · exact absurd hF hx.not_none
        · exact ih.mp hs
      · exact fun hs => .inr ⟨hF, ih.mpr hs⟩

/-- A search is decided in a front part of the list, or goes on behind it. -/
theorem search_append_iff :
    Search (Fs ++ Ls) k s o ↔
      (o ≠ none ∧ Search Fs k s o) ∨
        ((∀ L ∈ Fs, Answers L k s none) ∧ Search Ls k s o) := by
  induction Fs with
  | nil => simp [Search]
  | cons F Fs ih =>
      simp only [List.cons_append, Search, ih, List.forall_mem_cons]
      constructor
      · rintro (⟨x, rfl, hx⟩ | ⟨hn, ⟨ho, hs⟩ | ⟨hall, hs⟩⟩)
        · exact .inl ⟨by simp, .inl ⟨x, rfl, hx⟩⟩
        · exact .inl ⟨ho, .inr ⟨hn, hs⟩⟩
        · exact .inr ⟨⟨hn, hall⟩, hs⟩
      · rintro (⟨ho, ⟨x, rfl, hx⟩ | ⟨hn, hs⟩⟩ | ⟨⟨hn, hall⟩, hs⟩)
        · exact .inl ⟨x, rfl, hx⟩
        · exact .inr ⟨hn, .inl ⟨ho, hs⟩⟩
        · exact .inr ⟨hn, .inr ⟨hall, hs⟩⟩

/-- A layer that knows nothing of `k` at `s` can be added anywhere. -/
theorem search_insert_of_silent (h : Answers L k s none) :
    Search (Fs ++ L :: Ls) k s o ↔ Search (Fs ++ Ls) k s o := by
  have hL : Search (L :: Ls) k s o ↔ Search Ls k s o :=
    @search_append_of_silent _ _ Ls [L] k s o (by simpa using h)
  rw [search_append_iff, search_append_iff, hL]

/-- A layer can be added behind a front part of the list that has one containing it. -/
theorem search_insert_below (hsub : ∃ M ∈ Fs, T ⊆ M) (h : Search (Fs ++ Ts) k s o) :
    Search (Fs ++ T :: Ts) k s o := by
  rw [search_append_iff] at h ⊢
  refine h.imp_right fun ⟨hall, hs⟩ => ⟨hall, .inr ⟨?_, hs⟩⟩
  obtain ⟨M, hM, hT⟩ := hsub
  exact answers_none_of_subset hT (hall M hM)

/-! ### Right searches -/

theorem Reads.congr (hH : ∀ n v, n ≤ s → ((k, n, v) ∈ H ↔ (k, n, v) ∈ H'))
    (hL : List.Forall₂ (fun L L' => ∀ n v, n ≤ s → ((k, n, v) ∈ L ↔ (k, n, v) ∈ L')) Ls Ls')
    (h : Reads Ls H k s) : Reads Ls' H' k s :=
  fun o ho => (h o (ho.congr fun n v hn => (hH n v hn).symm)).congr hL

/-- The history may grow by versions newer than `s`. -/
theorem Reads.congr_hist (hH : ∀ n v, n ≤ s → ((k, n, v) ∈ H ↔ (k, n, v) ∈ H'))
    (h : Reads Ls H k s) : Reads Ls H' k s :=
  fun o ho => h o (ho.congr fun n v hn => (hH n v hn).symm)

theorem Reads.later (hH : ∀ n, Holds H k n → n ≤ s' → n ≤ s)
    (hL : ∀ L ∈ Ls, ∀ n, Holds L k n → n ≤ s' → n ≤ s) (hs : s ≤ s') (h : Reads Ls H k s) :
    Reads Ls H k s' :=
  fun o ho => (search_later hL hs).mpr (h o ((answers_later hH hs).mp ho))

/-- A search through functional layers finds what a right one is to find. -/
theorem Reads.answers (hf : ∀ L ∈ Ls, Functional L) (h : Reads Ls H k s)
    (hs : Search Ls k s o) : Answers H k s o := by
  obtain ⟨o', ho'⟩ := exists_answers H k s
  rwa [hs.unique hf (h o' ho')]

/-! ### The newest version of every key -/

/-- The newest version of each key. -/
def top (L : Layer K V) : Layer K V := {x | x ∈ L ∧ ∀ m, Holds L x.1 m → m ≤ x.2.1}

theorem top_subset (L : Layer K V) : top L ⊆ L := fun _ h => h.1

/-- `k` is read from `L` at time `s` and has a newer version in `L`, which `top L` would keep in
its place. -/
def Superseded (L : Layer K V) (k : K) (s : ℕ) : Prop :=
  (∃ n, Holds L k n ∧ n ≤ s) ∧ ∃ n, Holds L k n ∧ s < n

/-- Where no version newer than `s` supersedes the one read, `top M` answers like `M`. -/
theorem answers_top (h : ¬ Superseded M k s) (ha : Answers M k s o) : Answers (top M) k s o := by
  cases o with
  | none => exact answers_none_of_subset (top_subset M) ha
  | some x =>
      obtain ⟨n, v⟩ := x
      obtain ⟨hv, hn, hle, hmax⟩ := ha
      have hall : ∀ m, Holds M k m → m ≤ n := by
        intro m hm
        rcases Nat.lt_or_ge s m with hlt | hge
        · exact absurd ⟨⟨n, hn, hle⟩, m, hm, hlt⟩ h
        · exact hmax m hm hge
      exact ⟨⟨hv, hall⟩, ⟨v, hv, hall⟩, hle, fun m hm _ => hall m (hm.mono (top_subset M))⟩

/-- A layer above its own newest versions can go where they are the ones read. -/
theorem search_remove_above_top (h : ¬ Superseded M k s)
    (hs : Search (Fs ++ M :: top M :: Ts) k s o) : Search (Fs ++ top M :: Ts) k s o := by
  rw [search_append_iff] at hs ⊢
  refine hs.imp_right (And.imp_right ?_)
  rintro (⟨x, rfl, hx⟩ | ⟨_, hs⟩)
  · exact .inl ⟨x, rfl, answers_top h hx⟩
  · exact hs

/-! ### Reading the last version -/

/-- At times when all of the history is over, searches are right. -/
def ReadsLast (Ls : List (Layer K V)) (H : Layer K V) : Prop :=
  ∀ k s, (∀ n, Holds H k n → n ≤ s) → Reads Ls H k s

namespace ReadsLast

theorem nil : ReadsLast [] (∅ : Layer K V) := by
  intro k s _ o ho
  cases o with
  | none => rfl
  | some x => exact ho.1.elim

/-- Every version of the history is older than some bound of the layers. -/
theorem le (h : ReadsLast Ls H) (hfin : ∃ s, ∀ n, Holds H k n → n ≤ s)
    (hb : ∀ L ∈ Ls, ∀ n, Holds L k n → n ≤ m) (hn : Holds H k n) : n ≤ m := by
  obtain ⟨s, hs⟩ := hfin
  obtain ⟨o, ho⟩ := exists_answers H k s
  cases o with
  | none => exact absurd (hs n hn) (ho n hn).not_ge
  | some x =>
      obtain ⟨L, hL, hx, _⟩ := (h k s hs _ ho).mem
      exact (ho.2.2.2 n hn (hs n hn)).trans (hb L hL _ ⟨_, hx⟩)

theorem cons_empty (h : ReadsLast Ls H) : ReadsLast (∅ :: Ls) H :=
  fun k s hs o ho => .inr ⟨fun _ ⟨_, hv⟩ => hv.elim, h k s hs o ho⟩

/-- Versions newer than all of the history come into the first layer. -/
theorem commit {B : Layer K V} (h : ReadsLast (L :: Ls) H) (hsub : ∀ L' ∈ L :: Ls, L' ⊆ H)
    (hB : ∀ k n m, Holds B k n → Holds H k m → m < n) : ReadsLast ((L ∪ B) :: Ls) (H ∪ B) := by
  intro k s hs o ho
  by_cases hk : ∃ n, Holds B k n
  · obtain ⟨n, hn⟩ := hk
    cases o with
    | none => exact absurd (hs n (hn.imp fun _ => .inr)) (ho n (hn.imp fun _ => .inr)).not_ge
    | some x =>
        obtain ⟨m, v⟩ := x
        obtain ⟨hv, hm, hms, hmax⟩ := ho
        have hnm := hmax n (hn.imp fun _ => .inr) (hs n (hn.imp fun _ => .inr))
        have hvB : (k, m, v) ∈ B := by
          cases hv with
          | inl hv => exact absurd (hB k n m hn ⟨v, hv⟩) hnm.not_gt
          | inr hv => exact hv
        refine .inl ⟨_, rfl, .inr hvB, ⟨v, .inr hvB⟩, hms, ?_⟩
        intro i hi his
        refine hmax i (hi.imp fun w hw => ?_) his
        exact hw.imp_left fun hw => hsub L List.mem_cons_self hw
  · push Not at hk
    have hmem : ∀ n v, (k, n, v) ∈ H ∪ B ↔ (k, n, v) ∈ H := fun n v =>
      ⟨fun hv => hv.resolve_right fun hv => hk n ⟨v, hv⟩, .inl⟩
    have hold : Reads (L :: Ls) H k s :=
      h k s fun n hn => hs n (hn.imp fun v hv => .inl hv)
    refine Reads.congr (fun n v _ => (hmem n v).symm) ?_ hold o ho
    refine .cons (fun n v _ => ?_) (List.forall₂_same.mpr fun _ _ _ _ _ => Iff.rfl)
    exact ⟨.inl, fun hv => hv.resolve_right fun hv => hk n ⟨v, hv⟩⟩

theorem insert_below (hsub : ∃ M ∈ Fs, T ⊆ M) (h : ReadsLast (Fs ++ Ts) H) :
    ReadsLast (Fs ++ T :: Ts) H :=
  fun k s hs o ho => search_insert_below hsub (h k s hs o ho)

/-- A layer whose newest versions lie behind it can go, provided that of its keys the layers in
between (`Ls`) hold none that the layers in front do not. -/
theorem remove (h : ReadsLast (Fs ++ M :: (Ls ++ Ts)) H) (hsub : ∀ L ∈ M :: Fs, L ⊆ H)
    (hT : (∃ Ts', Ts = top M :: Ts') ∨ M = ∅)
    (hL : ∀ k n, Holds M k n →
      (∃ F ∈ Fs, ∃ m, Holds F k m) ∨ ∀ L ∈ Ls, ∀ m, ¬ Holds L k m) :
    ReadsLast (Fs ++ (Ls ++ Ts)) H := by
  intro k s hs o ho
  have hse := h k s hs o ho
  rw [search_append_iff] at hse ⊢
  refine hse.imp_right fun ⟨hall, hse⟩ => ⟨hall, ?_⟩
  cases hse with
  | inr hse => exact hse.2
  | inl hse =>
      obtain ⟨x, rfl, hx⟩ := hse
      obtain ⟨n, v⟩ := x
      have hM : Holds M k n := ⟨v, hx.mem⟩
      have hsilent : ∀ L ∈ Ls, ∀ m, ¬ Holds L k m := by
        apply (hL k n hM).resolve_left
        rintro ⟨F, hF, m, hm⟩
        have hle := hs m (hm.mono (hsub F (List.mem_cons_of_mem _ hF)))
        exact (hall F hF m hm).not_ge hle
      apply (search_append_of_silent fun L hL m hm => absurd hm (hsilent L hL m)).mpr
      cases hT with
      | inr hT => exact (hT ▸ hx.mem : (k, n, v) ∈ (∅ : Layer K V)).elim
      | inl hT =>
          obtain ⟨Ts', rfl⟩ := hT
          refine .inl ⟨_, rfl, answers_top ?_ hx⟩
          rintro ⟨_, m, hm, hlt⟩
          exact hlt.not_ge (hs m (hm.mono (hsub M List.mem_cons_self)))

end ReadsLast

/-! ### Layers in order -/

/-- `a` may lie in front of `b`: a version in `b` newer than one of the same key in `a` is also in
`a`. -/
def Over (a b : Layer K V) : Prop :=
  ∀ k n m, Holds b k n → Holds a k m → n ≤ m ∨ Holds a k n

theorem Over.of_subset (h : L' ⊆ L) : Over L L' := fun _ _ _ hn _ => .inr (hn.mono h)

theorem Over.mono_right (h : Over M L) (hsub : L' ⊆ L) : Over M L' :=
  fun k n m hn hm => h k n m (hn.mono hsub) hm

theorem over_top (h : Over M L) : Over (top M) L := by
  rintro k n m hn ⟨v, hv, hmax⟩
  rcases h k n m hn ⟨v, hv⟩ with hle | hM
  · exact .inl hle
  · exact .inl (hmax n hM)

theorem over_empty_left (L : Layer K V) : Over ∅ L := fun _ _ _ _ ⟨_, hm⟩ => hm.elim

/-- In layers in order, the first one with a version of `k` written by `s` has the newest. -/
theorem newest_of_pairwise_over {pre post : List (Layer K V)}
    (ho : (pre ++ L :: post).Pairwise Over) (hpre : ∀ A ∈ pre, Answers A k s none)
    (hn : Newest L k s n) : ∀ A ∈ pre ++ L :: post, ∀ m, Holds A k m → m ≤ s → m ≤ n := by
  intro A hA m hm hms
  rcases List.mem_append.mp hA with hA | hA
  · exact absurd hms (Nat.not_le.mpr (hpre A hA m hm))
  · rcases List.mem_cons.mp hA with rfl | hA
    · exact hn.2.2 m hm hms
    · have hL := (List.pairwise_cons.mp (List.pairwise_append.mp ho).2.1).1 A hA
      rcases hL k m n hm hn.1 with hle | hLm
      · exact hle
      · exact hn.2.2 m hLm hms

/-- A new empty layer in front. -/
theorem pairwise_over_cons_empty (h : Ls.Pairwise Over) : (∅ :: Ls).Pairwise (Over (K := K) (V := V)) :=
  List.pairwise_cons.mpr ⟨fun _ _ => over_empty_left _, h⟩

/-- Versions newer than all others come into the first layer. -/
theorem pairwise_over_grow (h : (L :: Ls).Pairwise Over) (hsub : L ⊆ L')
    (hnew : ∀ k m, Holds L' k m → Holds L k m ∨ ∀ A ∈ Ls, ∀ n, Holds A k n → n ≤ m) :
    (L' :: Ls).Pairwise Over := by
  obtain ⟨hL, hLs⟩ := List.pairwise_cons.mp h
  refine List.pairwise_cons.mpr ⟨fun A hA k n m hn hm => ?_, hLs⟩
  cases hnew k m hm with
  | inl hm => exact (hL A hA k n m hn hm).imp_right fun h => h.mono hsub
  | inr hm => exact .inl (hm A hA n hn)

/-- The newest versions of a layer come right behind it. -/
theorem pairwise_over_insert_top (h : (Fs ++ M :: Ts).Pairwise Over) :
    (Fs ++ M :: top M :: Ts).Pairwise Over := by
  obtain ⟨hFs, hMT, hF⟩ := List.pairwise_append.mp h
  obtain ⟨hM, hTs⟩ := List.pairwise_cons.mp hMT
  refine List.pairwise_append.mpr ⟨hFs, List.pairwise_cons.mpr ⟨?_, ?_⟩, ?_⟩
  · intro A hA
    cases List.mem_cons.mp hA with
    | inl hA => exact hA ▸ .of_subset (top_subset M)
    | inr hA => exact hM A hA
  · exact List.pairwise_cons.mpr ⟨fun A hA => over_top (hM A hA), hTs⟩
  · intro F hFm A hA
    cases List.mem_cons.mp hA with
    | inl hA => exact hA ▸ hF F hFm M List.mem_cons_self
    | inr hA =>
        cases List.mem_cons.mp hA with
        | inl hA => exact hA ▸ (hF F hFm M List.mem_cons_self).mono_right (top_subset M)
        | inr hA => exact hF F hFm A (List.mem_cons_of_mem _ hA)

end Layered
