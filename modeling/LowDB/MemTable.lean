import LowDB.Common
import LowDB.Lib.Layered

/-! # Sorted versions and the memtable

A memtable and a table hold a list of versions in key order: by user key, and within one user key
from the newest version to the oldest.  A lookup at `(key, seq)` stops at the first entry that
does not lie before the bound and answers if it is of the right user key (`lookupIn`).

`layer` is the set of versions of such a list, with the text of each value.  A lookup answers as
the layer does (`lookupIn_answers`), and leaving out the superseded versions, as a flush does,
leaves the newest version of each user key (`layer_newest`). -/

namespace LowDB

open Layered

/-- Entries in strictly ascending key order. -/
abbrev Sorted (es : List Entry) : Prop := es.Pairwise fun a b => a.1 < b.1

/-! ### Lookups in a sorted list -/

/-- The answer of the first entry that does not lie before `(key, seq)`, if its user key is
`key`. -/
def lookupIn (es : List Entry) (key : Str) (seq : ℕ) : Lookup :=
  match es.find? fun e => ¬ e.1.before key seq with
  | some e => if e.1.user = key then .ofValue e.2 else .absent
  | none => .absent

/-- The versions in a list of entries. -/
def layer (es : List Entry) : Layer Str (Option Str) :=
  {x | ∃ e ∈ es, (e.1.user, e.1.seq.toNat, e.2.text) = x}

variable {es : List Entry} {e x : Entry} {u : Str} {s n : ℕ} {v : Option Str}

theorem Sorted.pairwise_le (h : Sorted es) : es.Pairwise fun a b => a.1 ≤ b.1 :=
  h.imp fun h => h.le

theorem mem_layer (h : e ∈ es) : (e.1.user, e.1.seq.toNat, e.2.text) ∈ layer es := ⟨e, h, rfl⟩

theorem holds_layer_iff :
    Holds (layer es) u n ↔ ∃ e ∈ es, e.1.user = u ∧ e.1.seq.toNat = n := by
  constructor
  · rintro ⟨v, e, he, h⟩
    cases h
    exact ⟨e, he, rfl, rfl⟩
  · rintro ⟨e, he, rfl, rfl⟩
    exact ⟨_, mem_layer he⟩

theorem exists_holds_layer_iff {p : ℕ → Prop} :
    (∃ n, Holds (layer es) u n ∧ p n) ↔ ∃ e ∈ es, e.1.user = u ∧ p e.1.seq.toNat := by
  constructor
  · rintro ⟨_, hn, hp⟩
    obtain ⟨e, he, hu, rfl⟩ := holds_layer_iff.mp hn
    exact ⟨e, he, hu, hp⟩
  · rintro ⟨e, he, hu, hp⟩
    exact ⟨_, holds_layer_iff.mpr ⟨e, he, hu, rfl⟩, hp⟩

theorem superseded_layer_iff : Superseded (layer es) u n ↔
    (∃ e ∈ es, e.1.user = u ∧ e.1.seq.toNat ≤ n) ∧ ∃ e ∈ es, e.1.user = u ∧ n < e.1.seq.toNat :=
  and_congr exists_holds_layer_iff exists_holds_layer_iff

instance : Decidable (Superseded (layer es) u n) := decidable_of_iff' _ superseded_layer_iff

theorem layer_mono {es' : List Entry} (h : es ⊆ es') : layer es ⊆ layer es' :=
  fun _ ⟨e, he, hx⟩ => ⟨e, h he, hx⟩

@[simp] theorem layer_nil : layer [] = ∅ := by
  ext x
  simp [layer]

theorem Key.eq_of_user_seq {a b : Key} (hu : a.user = b.user) (hs : a.seq.toNat = b.seq.toNat) :
    a = b := by
  cases a
  cases b
  cases hu
  cases UInt64.toNat_inj.mp hs
  rfl

/-- A sorted list has one entry for a key. -/
theorem Sorted.eq_of_key {a b : Entry} (h : Sorted es) (ha : a ∈ es) (hb : b ∈ es)
    (hk : a.1 = b.1) : a = b := by
  induction es with
  | nil => cases ha
  | cons e es ih =>
      obtain ⟨hlt, hes⟩ := List.pairwise_cons.mp h
      rcases List.mem_cons.mp ha with rfl | ha'
      · rcases List.mem_cons.mp hb with rfl | hb'
        · rfl
        · exact absurd hk (hlt b hb').ne
      · rcases List.mem_cons.mp hb with rfl | hb'
        · exact absurd hk (hlt a ha').ne'
        · exact ih hes ha' hb'

theorem functional_layer (h : Sorted es) : Functional (layer es) := by
  rintro k n v w ⟨a, ha, ea⟩ ⟨b, hb, eb⟩
  simp only [Prod.mk.injEq] at ea eb
  obtain ⟨rfl, rfl, rfl⟩ := ea
  obtain ⟨hu, hn, rfl⟩ := eb
  rw [h.eq_of_key ha hb (Key.eq_of_user_seq hu.symm hn.symm)]

/-- A lookup answers as the layer of the list does. -/
theorem lookupIn_answers (h : Sorted es) (u : Str) (s : ℕ) :
    ∃ o, Answers (layer es) u s o ∧ (lookupIn es u s).text = o.map Prod.snd := by
  induction es with
  | nil => exact ⟨none, fun n ⟨_, _, he, _⟩ => absurd he List.not_mem_nil, rfl⟩
  | cons e es ih =>
      obtain ⟨hlt, hes⟩ := List.pairwise_cons.mp h
      by_cases hb : e.1.before u s
      · -- an entry before the bound is no version of `u` written by `s`
        obtain ⟨o, ho, ht⟩ := ih hes
        refine ⟨o, ho.congr ?_, ?_⟩
        · intro n v hn
          constructor
          · exact fun hx => layer_mono (List.subset_cons_self e es) hx
          · rintro ⟨a, ha, hx⟩
            cases hx
            rcases List.mem_cons.mp ha with rfl | ha
            · rcases hb with hb | ⟨_, hb⟩
              · exact absurd hb (lt_irrefl _)
              · omega
            · exact mem_layer ha
        · rw [← ht, lookupIn, List.find?_cons_of_neg (by simpa using hb)]
          rfl
      · have hl : lookupIn (e :: es) u s = if e.1.user = u then .ofValue e.2 else .absent := by
          rw [lookupIn, List.find?_cons_of_pos (by simpa using hb)]
        have hb' : ∀ a ∈ es, a.1.user = u → e.1.user = u ∧ a.1.seq.toNat < e.1.seq.toNat := by
          rintro a ha rfl
          rcases Key.lt_iff.mp (hlt a ha) with hu | ⟨hu, hs⟩
          · exact absurd (.inl hu) hb
          · exact ⟨hu, hs⟩
        by_cases hu : e.1.user = u
        · have hs : e.1.seq.toNat ≤ s := Nat.le_of_not_lt fun h => hb (.inr ⟨hu, h⟩)
          refine ⟨some (e.1.seq.toNat, e.2.text), ⟨?_, ?_, hs, ?_⟩, ?_⟩
          · exact hu ▸ mem_layer List.mem_cons_self
          · exact holds_layer_iff.mpr ⟨e, List.mem_cons_self, hu, rfl⟩
          · intro m hm _
            obtain ⟨a, ha, hau, rfl⟩ := holds_layer_iff.mp hm
            rcases List.mem_cons.mp ha with rfl | ha
            · exact le_rfl
            · exact (hb' a ha hau).2.le
          · rw [hl, if_pos hu, Lookup.text_ofValue]
            rfl
        · refine ⟨none, fun n hn => ?_, by rw [hl, if_neg hu]; rfl⟩
          obtain ⟨a, ha, hau, rfl⟩ := holds_layer_iff.mp hn
          rcases List.mem_cons.mp ha with rfl | ha
          · exact absurd hau hu
          · exact absurd (hb' a ha hau).1 hu

/-- The first entry that does not lie before the bound, if it is of the user key. -/
def entryAt (es : List Entry) (key : Str) (seq : ℕ) : Option Entry :=
  (es.find? fun e => ¬ e.1.before key seq).filter fun e => e.1.user = key

theorem lookupIn_eq (es : List Entry) (u : Str) (s : ℕ) :
    lookupIn es u s = ((entryAt es u s).map fun e => Lookup.ofValue e.2).getD .absent := by
  unfold lookupIn entryAt
  cases es.find? fun e => ¬ e.1.before u s with
  | none => rfl
  | some e => by_cases hu : e.1.user = u <;> simp [hu, Option.filter]

/-- In key order the first entry that is not before the bound is the newest version of `u` written
by `s`, when there is one. -/
theorem entryAt_newest (h : es.Pairwise fun a b => a.1 ≤ b.1) (u : Str) (s : ℕ) :
    (∀ e ∈ es, e.1.user = u → s < e.1.seq.toNat) ∧ entryAt es u s = none ∨
      ∃ x ∈ es, x.1.user = u ∧ x.1.seq.toNat ≤ s ∧
        (∀ e ∈ es, e.1.user = u → e.1.seq.toNat ≤ s → e.1.seq.toNat ≤ x.1.seq.toNat) ∧
        entryAt es u s = some x := by
  unfold entryAt
  cases hf : es.find? fun e => ¬ e.1.before u s with
  | none =>
      refine .inl ⟨fun e he hu => ?_, rfl⟩
      have hb : e.1.before u s := by simpa using List.find?_eq_none.mp hf e he
      rcases hb with hb | ⟨_, hb⟩
      · exact absurd hb (by rw [hu]; exact lt_irrefl _)
      · exact hb
  | some x =>
      obtain ⟨hx, pre, post, rfl, hpre⟩ := List.find?_eq_some_iff_append.mp hf
      have hx' : ¬ x.1.before u s := by simpa using hx
      have hlater : ∀ e ∈ x :: post, x.1 ≤ e.1 := by
        intro e he
        rcases List.mem_cons.mp he with rfl | he
        · exact le_rfl
        · exact (List.pairwise_cons.mp (List.pairwise_append.mp h).2.1).1 e he
      have hold : ∀ e ∈ pre, e.1.user = u → s < e.1.seq.toNat := by
        intro e he hu
        have hb : e.1.before u s := by simpa using hpre e he
        rcases hb with hb | ⟨_, hb⟩
        · exact absurd hb (by rw [hu]; exact lt_irrefl _)
        · exact hb
      by_cases hu : x.1.user = u
      · have hs : x.1.seq.toNat ≤ s := Nat.le_of_not_lt fun hlt => hx' (.inr ⟨hu, hlt⟩)
        refine .inr ⟨x, by simp, hu, hs, fun e he heu hes => ?_, by simp [hu, Option.filter]⟩
        rcases List.mem_append.mp he with he | he
        · exact absurd (hold e he heu) (by omega)
        · rcases (hlater e he).lt_or_eq with hlt | heq
          · rcases Key.lt_iff.mp hlt with hlt | ⟨_, hlt⟩
            · rw [hu, heu] at hlt
              exact absurd hlt (lt_irrefl _)
            · exact hlt.le
          · rw [heq]
      · refine .inl ⟨fun e he heu => ?_, by simp [hu, Option.filter]⟩
        rcases List.mem_append.mp he with he | he
        · exact hold e he heu
        · -- `x` is not before the bound and not of `u`, so it lies above every version of `u`
          have hux : u < x.1.user :=
            lt_of_le_of_ne (not_lt.mp fun hlt => hx' (.inl hlt)) (Ne.symm hu)
          rcases (hlater e he).lt_or_eq with hlt | heq
          · rcases Key.lt_iff.mp hlt with hlt | ⟨heq, _⟩
            · exact absurd (hux.trans hlt) (by rw [heu]; exact lt_irrefl _)
            · exact absurd (heq.trans heu) hu
          · exact absurd (heq ▸ heu) hu

/-! ### Stored entries -/

@[simp] theorem layer_map_stored (es : List Entry) : layer (es.map Entry.stored) = layer es := by
  ext x
  simp [layer, Entry.stored]

theorem Sorted.map_stored (h : Sorted es) : Sorted (es.map Entry.stored) :=
  List.pairwise_map.mpr h

/-! ### The newest version of every user key -/

/-- The loop of `write_l0`, with the last user key written: skip the versions of that key. -/
def newestFrom : Option Str → List Entry → List Entry
  | _, [] => []
  | previous, e :: es =>
    if previous = some e.1.user then newestFrom previous es
    else e :: newestFrom (some e.1.user) es

/-- The entries `write_l0` hands to the table writer. -/
def newest (es : List Entry) : List Entry := newestFrom none es

theorem newestFrom_concat (p : Option Str) (es : List Entry) (e : Entry) :
    newestFrom p (es ++ [e]) =
      newestFrom p es ++
        if es.foldl (fun _ a => some a.1.user) p = some e.1.user then [] else [e] := by
  induction es generalizing p with
  | nil =>
      by_cases h : p = some e.1.user <;> simp [newestFrom, h]
  | cons a as ih =>
      rw [List.cons_append, newestFrom, newestFrom, List.foldl_cons]
      by_cases h : p = some a.1.user
      · rw [if_pos h, if_pos h, ih, h]
      · rw [if_neg h, if_neg h, ih, List.cons_append]

theorem newest_concat (es : List Entry) (e : Entry) :
    newest (es ++ [e]) =
      newest es ++ if es.getLast?.map (fun a => a.1.user) = some e.1.user then [] else [e] := by
  have hlast : es.foldl (fun _ a => some a.1.user) none = es.getLast?.map fun a => a.1.user := by
    rcases List.eq_nil_or_concat' es with rfl | ⟨l, a, rfl⟩
    · rfl
    · simp
  rw [newest, newestFrom_concat, hlast]
  rfl

/-- Every user key keeps a version. -/
theorem exists_mem_newestFrom {p : Option Str} (h : e ∈ es) :
    p = some e.1.user ∨ ∃ x ∈ newestFrom p es, x.1.user = e.1.user := by
  induction es generalizing p with
  | nil => cases h
  | cons a as ih =>
      unfold newestFrom
      by_cases hp : p = some a.1.user
      · rw [if_pos hp]
        rcases List.mem_cons.mp h with rfl | h
        · exact .inl hp
        · exact ih h
      · rw [if_neg hp]
        refine .inr ?_
        rcases List.mem_cons.mp h with rfl | h
        · exact ⟨e, List.mem_cons_self, rfl⟩
        · rcases @ih (some a.1.user) h with ha | ⟨x, hx, hu⟩
          · exact ⟨a, List.mem_cons_self, Option.some_inj.mp ha⟩
          · exact ⟨x, List.mem_cons_of_mem _ hx, hu⟩

theorem exists_mem_newest (h : e ∈ es) : ∃ x ∈ newest es, x.1.user = e.1.user :=
  (exists_mem_newestFrom h).resolve_left (fun h => nomatch h)

theorem newestFrom_sublist (p : Option Str) (es : List Entry) : (newestFrom p es).Sublist es := by
  induction es generalizing p with
  | nil => exact List.Sublist.refl _
  | cons e es ih =>
      unfold newestFrom
      split_ifs
      · exact (ih p).cons e
      · exact (ih _).cons_cons e

theorem newest_sublist (es : List Entry) : (newest es).Sublist es := newestFrom_sublist none es

theorem Sorted.newest (h : Sorted es) : Sorted (newest es) := h.sublist (newest_sublist es)

theorem mem_newestFrom {p : Option Str} (h : Sorted es) (hp : ∀ q ∈ p, ∀ e ∈ es, q ≤ e.1.user) :
    x ∈ newestFrom p es ↔ x ∈ es ∧ p ≠ some x.1.user ∧
      ∀ y ∈ es, y.1.user = x.1.user → y.1.seq.toNat ≤ x.1.seq.toNat := by
  induction es generalizing p with
  | nil => simp [newestFrom]
  | cons e es ih =>
      obtain ⟨hlt, hes⟩ := List.pairwise_cons.mp h
      unfold newestFrom
      split_ifs with hpe
      · rw [ih hes fun q hq y hy => hp q hq y (List.mem_cons_of_mem _ hy)]
        constructor
        · rintro ⟨hx, hpx, hmax⟩
          refine ⟨List.mem_cons_of_mem _ hx, hpx, List.forall_mem_cons.mpr ⟨?_, hmax⟩⟩
          exact fun hu => absurd (hpe.trans (congrArg some hu)) hpx
        · rintro ⟨hx, hpx, hmax⟩
          rcases List.mem_cons.mp hx with rfl | hx
          · exact absurd hpe hpx
          · exact ⟨hx, hpx, fun y hy => hmax y (List.mem_cons_of_mem _ hy)⟩
      · have hle : ∀ q ∈ some e.1.user, ∀ y ∈ es, q ≤ y.1.user := by
          rintro q hq y hy
          cases hq
          rcases Key.lt_iff.mp (hlt y hy) with hu | ⟨hu, _⟩
          · exact hu.le
          · exact hu.le
        rw [List.mem_cons, ih hes hle]
        constructor
        · rintro (rfl | ⟨hx, hex, hmax⟩)
          · refine ⟨List.mem_cons_self, hpe, List.forall_mem_cons.mpr ⟨fun _ => le_rfl, ?_⟩⟩
            intro y hy hu
            rcases Key.lt_iff.mp (hlt y hy) with hu' | ⟨_, hs⟩
            · exact absurd hu hu'.ne'
            · exact hs.le
          · have hux : e.1.user ≠ x.1.user := fun hu => hex (congrArg some hu)
            refine ⟨List.mem_cons_of_mem _ hx, ?_, List.forall_mem_cons.mpr ⟨?_, hmax⟩⟩
            · -- the last user key written lies below `e`, and `e` below `x`
              rintro rfl
              have h₁ := hp x.1.user rfl e List.mem_cons_self
              exact hux ((hle _ rfl x hx).antisymm h₁)
            · exact fun hu => absurd hu hux
        · rintro ⟨hx, hpx, hmax⟩
          rcases List.mem_cons.mp hx with rfl | hx
          · exact .inl rfl
          · refine .inr ⟨hx, ?_, fun y hy => hmax y (List.mem_cons_of_mem _ hy)⟩
            intro hu
            have hu : e.1.user = x.1.user := Option.some_inj.mp hu
            have hs := hmax e List.mem_cons_self hu
            rcases Key.lt_iff.mp (hlt x hx) with hu' | ⟨_, hs'⟩
            · exact hu'.ne hu
            · omega

theorem mem_newest (h : Sorted es) :
    x ∈ newest es ↔
      x ∈ es ∧ ∀ y ∈ es, y.1.user = x.1.user → y.1.seq.toNat ≤ x.1.seq.toNat := by
  rw [newest, mem_newestFrom h (by simp)]
  simp

/-- What a flush keeps is the newest version of each user key. -/
theorem layer_newest (h : Sorted es) : layer (newest es) = top (layer es) := by
  ext ⟨k, n, v⟩
  constructor
  · rintro ⟨e, he, hx⟩
    cases hx
    obtain ⟨he, hmax⟩ := (mem_newest h).mp he
    refine ⟨mem_layer he, ?_⟩
    intro m hm
    obtain ⟨y, hy, hu, rfl⟩ := holds_layer_iff.mp hm
    exact hmax y hy hu
  · rintro ⟨⟨e, he, hx⟩, hmax⟩
    cases hx
    refine ⟨e, (mem_newest h).mpr ⟨he, fun y hy hu => ?_⟩, rfl⟩
    exact hmax _ (holds_layer_iff.mpr ⟨y, hy, hu, rfl⟩)

/-- What a flush keeps has one version of each user key. -/
theorem newest_users (h : Sorted es) : (newest es).Pairwise fun a b => a.1.user < b.1.user := by
  refine h.newest.imp_of_mem fun {a b} ha hb hab => ?_
  rcases Key.lt_iff.mp hab with hu | ⟨hu, hs⟩
  · exact hu
  · have := ((mem_newest h).mp hb).2 a ((mem_newest h).mp ha).1 hu
    omega

/-- What a flush keeps has one entry for each user key. -/
theorem length_newest {us : List Str} (h : Sorted es) (hn : us.Nodup)
    (hu : ∀ u, u ∈ us ↔ ∃ e ∈ es, e.1.user = u) : (newest es).length = us.length := by
  have hnodup : ((newest es).map fun e => e.1.user).Nodup :=
    List.pairwise_map.mpr ((newest_users h).imp fun h => h.ne)
  rw [← List.length_map (fun e : Entry => e.1.user)]
  refine ((List.perm_ext_iff_of_nodup hnodup hn).mpr fun u => ?_).length_eq
  rw [hu, List.mem_map]
  constructor
  · rintro ⟨e, he, hu⟩
    exact ⟨e, (newest_sublist es).subset he, hu⟩
  · rintro ⟨e, he, rfl⟩
    exact exists_mem_newest he

/-- A list with one version of each user key is kept as it is. -/
theorem newestFrom_eq_self {p : Option Str} (h : es.Pairwise fun a b => a.1.user < b.1.user)
    (hp : ∀ e ∈ es, p ≠ some e.1.user) : newestFrom p es = es := by
  induction es generalizing p with
  | nil => rfl
  | cons a as ih =>
      obtain ⟨hlt, has⟩ := List.pairwise_cons.mp h
      rw [newestFrom, if_neg (hp a List.mem_cons_self),
        ih has fun e he heq => (hlt e he).ne (Option.some_inj.mp heq)]

theorem newest_newest (h : Sorted es) : newest (newest es) = newest es :=
  newestFrom_eq_self (newest_users h) fun _ _ h => nomatch h

/-! ### The greatest sequence number -/

/-- `max_seq = max_seq.max(key.1)` over the keys of a list. -/
def maxSeqOf (m : ℕ) (es : List Entry) : ℕ := es.foldl (fun m e => max m e.1.seq.toNat) m

theorem le_maxSeqOf (m : ℕ) (es : List Entry) : m ≤ maxSeqOf m es := by
  induction es generalizing m with
  | nil => exact le_rfl
  | cons e es ih => exact (le_max_left _ _).trans (ih _)

theorem seq_le_maxSeqOf {m : ℕ} {es : List Entry} {e : Entry} (h : e ∈ es) :
    e.1.seq.toNat ≤ maxSeqOf m es := by
  induction es generalizing m with
  | nil => cases h
  | cons a es ih =>
      rcases List.mem_cons.mp h with rfl | h
      · exact (le_max_right _ _).trans (le_maxSeqOf _ _)
      · exact ih h

theorem maxSeqOf_append (m : ℕ) (es es' : List Entry) :
    maxSeqOf m (es ++ es') = maxSeqOf (maxSeqOf m es) es' := List.foldl_append

theorem maxSeqOf_map_stored (m : ℕ) (es : List Entry) :
    maxSeqOf m (es.map Entry.stored) = maxSeqOf m es := by
  rw [maxSeqOf, List.foldl_map]
  rfl

/-! ### The memtable -/

/-- `SkipList::insert`: a version already present is kept. -/
def insertEntry (e : Entry) : List Entry → List Entry
  | [] => [e]
  | x :: xs =>
    if x.1 < e.1 then x :: insertEntry e xs else if x.1 = e.1 then x :: xs else e :: x :: xs

theorem insertEntry_subset (e : Entry) (es : List Entry) : insertEntry e es ⊆ e :: es := by
  induction es with
  | nil => exact fun _ h => h
  | cons x xs ih =>
      unfold insertEntry
      split_ifs
      · refine List.cons_subset.mpr ⟨by simp, ?_⟩
        intro y hy
        rcases List.mem_cons.mp (ih hy) with rfl | hy
        · exact List.mem_cons_self
        · simp [hy]
      · exact List.subset_cons_self _ _
      · exact fun _ h => h

theorem subset_insertEntry (e : Entry) (es : List Entry) : es ⊆ insertEntry e es := by
  induction es with
  | nil => exact List.nil_subset _
  | cons x xs ih =>
      unfold insertEntry
      split_ifs
      · exact List.cons_subset_cons x ih
      · exact fun _ h => h
      · exact List.subset_cons_self _ _

theorem Sorted.insertEntry (h : Sorted es) (e : Entry) : Sorted (insertEntry e es) := by
  induction es with
  | nil => exact List.pairwise_singleton _ _
  | cons x xs ih =>
      obtain ⟨hlt, hxs⟩ := List.pairwise_cons.mp h
      unfold LowDB.insertEntry
      split_ifs with hx he
      · refine List.pairwise_cons.mpr ⟨fun y hy => ?_, ih hxs⟩
        rcases List.mem_cons.mp (insertEntry_subset e xs hy) with rfl | hy
        · exact hx
        · exact hlt y hy
      · exact h
      · have hex : e.1 < x.1 := lt_of_le_of_ne (not_lt.mp hx) (Ne.symm he)
        refine List.pairwise_cons.mpr ⟨fun y hy => ?_, h⟩
        rcases List.mem_cons.mp hy with rfl | hy
        · exact hex
        · exact hex.trans (hlt y hy)

theorem mem_insertEntry (h : Sorted es) :
    x ∈ insertEntry e es ↔ x ∈ es ∨ (x = e ∧ ∀ y ∈ es, y.1 ≠ e.1) := by
  induction es with
  | nil => simp [insertEntry]
  | cons a as ih =>
      obtain ⟨hlt, has⟩ := List.pairwise_cons.mp h
      unfold insertEntry
      split_ifs with ha he
      · rw [List.mem_cons, ih has, List.mem_cons, or_assoc, List.forall_mem_cons]
        simp [ha.ne]
      · simp [he]
      · have hne : ∀ y ∈ a :: as, y.1 ≠ e.1 := by
          have hea : e.1 < a.1 := lt_of_le_of_ne (not_lt.mp ha) (Ne.symm he)
          refine List.forall_mem_cons.mpr ⟨he, ?_⟩
          intro y hy
          exact (hea.trans (hlt y hy)).ne'
        rw [List.mem_cons]
        constructor
        · rintro (rfl | hx)
          · exact .inr ⟨rfl, hne⟩
          · exact .inl hx
        · rintro (hx | ⟨rfl, _⟩)
          · exact .inr hx
          · exact .inl rfl

theorem insertEntry_of_mem (h : Sorted es) (hx : x ∈ es) (hk : x.1 = e.1) :
    insertEntry e es = es := by
  induction es with
  | nil => cases hx
  | cons a as ih =>
      obtain ⟨hlt, has⟩ := List.pairwise_cons.mp h
      unfold insertEntry
      rcases List.mem_cons.mp hx with rfl | hx
      · simp [hk]
      · rw [if_pos (hk ▸ hlt x hx), ih has hx]

theorem perm_insertEntry (hk : ∀ y ∈ es, y.1 ≠ e.1) : (insertEntry e es).Perm (e :: es) := by
  induction es with
  | nil => exact List.Perm.refl _
  | cons a as ih =>
      obtain ⟨ha, has⟩ := List.forall_mem_cons.mp hk
      unfold insertEntry
      split_ifs
      · exact ((ih has).cons a).trans (List.Perm.swap e a as)
      · exact List.Perm.refl _

/-- A memtable: its id, which is that of its log, and its versions in key order. -/
structure MemTable where
  id : ℕ
  entries : List Entry
  sorted : Sorted entries

namespace MemTable

/-- `MemTable::new`. -/
def new (id : ℕ) : MemTable := ⟨id, [], List.Pairwise.nil⟩

def put (t : MemTable) (key : Key) (value : Value) : MemTable :=
  ⟨t.id, insertEntry (key, value) t.entries, t.sorted.insertEntry _⟩

def getSnap (t : MemTable) (key : Str) (seq : ℕ) : Lookup := lookupIn t.entries key seq

/-- `MemTable::iter`. -/
def iter (t : MemTable) : List Entry := t.entries

def isEmpty (t : MemTable) : Bool := t.entries.isEmpty

/-- `for (k, v) in es { table.put(k, v); }`. -/
def putAll (t : MemTable) (es : List Entry) : MemTable :=
  es.foldl (fun t e => t.put e.1 e.2) t

variable {t t' : MemTable}

@[ext] theorem ext (hid : t.id = t'.id) (he : t.entries = t'.entries) : t = t' := by
  cases t
  cases t'
  cases hid
  cases he
  rfl

@[simp] theorem new_entries (id : ℕ) : (new id).entries = [] := rfl

@[simp] theorem new_id (id : ℕ) : (new id).id = id := rfl

@[simp] theorem put_entries (t : MemTable) (k : Key) (v : Value) :
    (t.put k v).entries = insertEntry (k, v) t.entries := rfl

@[simp] theorem put_id (t : MemTable) (k : Key) (v : Value) : (t.put k v).id = t.id := rfl

@[simp] theorem putAll_nil (t : MemTable) : t.putAll [] = t := rfl

@[simp] theorem putAll_cons (t : MemTable) (e : Entry) (es : List Entry) :
    t.putAll (e :: es) = (t.put e.1 e.2).putAll es := rfl

theorem putAll_append (t : MemTable) (es es' : List Entry) :
    t.putAll (es ++ es') = (t.putAll es).putAll es' := List.foldl_append

@[simp] theorem putAll_id (t : MemTable) (es : List Entry) : (t.putAll es).id = t.id := by
  induction es generalizing t with
  | nil => rfl
  | cons e es ih => rw [putAll_cons, ih, put_id]

/-- Of several values for one version the first one put stays. -/
theorem mem_putAll {es : List Entry} :
    x ∈ (t.putAll es).entries ↔
      x ∈ t.entries ∨
        ((∀ y ∈ t.entries, y.1 ≠ x.1) ∧ es.find? (fun y => y.1 = x.1) = some x) := by
  induction es generalizing t with
  | nil => simp
  | cons e es ih =>
      rw [putAll_cons, ih, put_entries, Prod.mk.eta, mem_insertEntry t.sorted]
      by_cases hx : x ∈ t.entries
      · simp [hx]
      by_cases hk : e.1 = x.1
      · -- `e` settles the version: it is put, or it was there before
        rw [List.find?_cons_of_pos (by simpa using hk)]
        have hnot : ¬ ∀ y ∈ LowDB.insertEntry e t.entries, y.1 ≠ x.1 := by
          intro hall
          by_cases hy : ∀ y ∈ t.entries, y.1 ≠ e.1
          · exact hall e ((mem_insertEntry t.sorted).mpr (.inr ⟨rfl, hy⟩)) hk
          · push Not at hy
            obtain ⟨y, hy, he⟩ := hy
            exact hall y (subset_insertEntry _ _ hy) (he.trans hk)
        simp only [hx, false_or, hnot, false_and, or_false, Option.some_inj]
        constructor
        · rintro ⟨rfl, h⟩
          exact ⟨h, rfl⟩
        · rintro ⟨h, rfl⟩
          exact ⟨rfl, h⟩
      · rw [List.find?_cons_of_neg (by simpa using hk)]
        have hall : (∀ y ∈ LowDB.insertEntry e t.entries, y.1 ≠ x.1) ↔
            ∀ y ∈ t.entries, y.1 ≠ x.1 := by
          constructor
          · exact fun h y hy => h y (subset_insertEntry _ _ hy)
          · intro h y hy
            rcases List.mem_cons.mp (insertEntry_subset _ _ hy) with rfl | hy
            · exact hk
            · exact h y hy
        have hne : x ≠ e := fun h => hk (by rw [h])
        rw [hall]
        simp [hx, hne]

theorem mem_of_putAll {x : Entry} (h : x ∈ (t.putAll es).entries) : x ∈ t.entries ∨ x ∈ es :=
  (mem_putAll.mp h).imp_right fun h => List.mem_of_find?_eq_some h.2

theorem users_putAll : (∃ e ∈ (t.putAll es).entries, e.1.user = u) ↔
    (∃ e ∈ t.entries, e.1.user = u) ∨ ∃ e ∈ es, e.1.user = u := by
  constructor
  · rintro ⟨e, he, hu⟩
    exact (mem_of_putAll he).imp (fun h => ⟨e, h, hu⟩) fun h => ⟨e, h, hu⟩
  · rintro (⟨e, he, hu⟩ | ⟨e, he, hu⟩)
    · exact ⟨e, mem_putAll.mpr (.inl he), hu⟩
    · by_cases hk : ∀ y ∈ t.entries, y.1 ≠ e.1
      · obtain ⟨x, hx⟩ : ∃ x, es.find? (fun y => y.1 = e.1) = some x :=
          Option.isSome_iff_exists.mp (List.find?_isSome.mpr ⟨e, he, by simp⟩)
        have hxe : x.1 = e.1 := by simpa using List.find?_some hx
        exact ⟨x, mem_putAll.mpr (.inr ⟨hxe ▸ hk, hxe ▸ hx⟩), hxe ▸ hu⟩
      · push Not at hk
        obtain ⟨y, hy, hk⟩ := hk
        exact ⟨y, mem_putAll.mpr (.inl hy), hk ▸ hu⟩

/-- A lookup answers as the layer of the memtable does. -/
theorem getSnap_answers (t : MemTable) (u : Str) (s : ℕ) :
    ∃ o, Answers (layer t.entries) u s o ∧ (t.getSnap u s).text = o.map Prod.snd :=
  lookupIn_answers t.sorted u s

end MemTable

end LowDB
