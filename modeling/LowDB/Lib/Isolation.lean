import LowDB.Lib.Layered

/-! # Snapshot isolation

A multi-version database by its effects on its clients.  A transaction reads what was committed when it
began, under its own writes; it commits only if no key it writes has got a version since.  A single write
always commits.  A stop takes the transactions and leaves the versions.

Of every run: no other version of a key a transaction writes lies between its beginning and its commit
(`Committed.Inv.undisturbed`), so what it read there was still the newest when it committed; and of two
transactions that write a common key one commits before the other begins (`Inv.first`). -/

namespace Isolation

open Layered

variable {K V : Type*}

/-- The keys written, and what: none is a deletion. -/
abbrev Writes (K V : Type*) := K → Option (Option V)

/-- The versions of `w` at the time `ts`. -/
def Writes.at (w : Writes K V) (ts : ℕ) : Layer K (Option V) := {x | x.2.1 = ts ∧ w x.1 = some x.2.2}

structure Tx (K V : Type*) where
  start : ℕ
  writes : Writes K V

/-- What a lookup of `k` in the transaction finds. -/
def Tx.Reads (t : Tx K V) (hist : Layer K (Option V)) (k : K) (v : Option V) : Prop :=
  match t.writes k with
  | some w => v = w
  | none => ∃ o, Answers hist k t.start o ∧ v = o.bind Prod.snd

/-- No key written has a version after the beginning. -/
def Tx.Undisturbed (t : Tx K V) (hist : Layer K (Option V)) : Prop :=
  ∀ k, t.writes k ≠ none → ∀ n, Holds hist k n → n ≤ t.start

/-- A committed transaction. -/
structure Committed (K : Type*) where
  start : ℕ
  ts : ℕ
  keys : Set K

structure State (K V : Type*) where
  clock : ℕ
  hist : Layer K (Option V)
  txs : ℕ → Option (Tx K V)
  log : List (Committed K)

def State.init : State K V := ⟨0, ∅, fun _ => none, []⟩

/-- What the clients see. -/
inductive Label (K V : Type*) where
  | begin (i : ℕ)
  | write (i : ℕ) (k : K) (v : Option V)
  | read (i : ℕ) (k : K) (v : Option V)
  | commit (i ts : ℕ)
  /-- a write without a transaction -/
  | put (w : Writes K V) (ts : ℕ)
  /-- a commit that is refused -/
  | conflict (i : ℕ)
  /-- the transaction ends without an effect -/
  | leave (i : ℕ)
  | stop
  | start (clock : ℕ)

inductive Step [DecidableEq K] (A : State K V) : Label K V → State K V → Prop
  | begin {i : ℕ} (hi : A.txs i = none) :
      Step A (.begin i) { A with txs := Function.update A.txs i (some ⟨A.clock, fun _ => none⟩) }
  | write {i : ℕ} {t : Tx K V} {k : K} {v : Option V} (ht : A.txs i = some t) :
      Step A (.write i k v) { A with
        txs := Function.update A.txs i (some { t with writes := Function.update t.writes k (some v) }) }
  | read {i : ℕ} {t : Tx K V} {k : K} {v : Option V} (ht : A.txs i = some t)
      (hr : t.Reads A.hist k v) : Step A (.read i k v) A
  | commit {i ts : ℕ} {t : Tx K V} (ht : A.txs i = some t) (hts : A.clock < ts)
      (hu : t.Undisturbed A.hist) :
      Step A (.commit i ts)
        { clock := ts
          hist := A.hist ∪ t.writes.at ts
          txs := Function.update A.txs i none
          log := A.log ++ [⟨t.start, ts, {k | t.writes k ≠ none}⟩] }
  | put {w : Writes K V} {ts : ℕ} (hts : A.clock < ts) :
      Step A (.put w ts) { A with clock := ts, hist := A.hist ∪ w.at ts }
  | conflict {i : ℕ} {t : Tx K V} (ht : A.txs i = some t) (hu : ¬ t.Undisturbed A.hist) :
      Step A (.conflict i) { A with txs := Function.update A.txs i none }
  | leave {i : ℕ} : Step A (.leave i) { A with txs := Function.update A.txs i none }
  | stop : Step A .stop { A with txs := fun _ => none }
  | start {clock : ℕ} (ht : A.txs = fun _ => none) (hc : ∀ k n, Holds A.hist k n → n ≤ clock) :
      Step A (.start clock) { A with clock := clock }

inductive Run [DecidableEq K] (A : State K V) : List (Label K V) → State K V → Prop
  | nil : Run A [] A
  | snoc {ls : List (Label K V)} {l : Label K V} {B C : State K V} (hr : Run A ls B)
      (hs : Step B l C) : Run A (ls ++ [l]) C

variable {A B C : State K V} {l : Label K V} {ls ls' : List (Label K V)} {k : K} {n ts : ℕ}
  {v : Option V} {w : Writes K V}

theorem Tx.reads_own {t : Tx K V} {w : Option V} (h : t.writes k = some w) (hist : Layer K (Option V)) :
    t.Reads hist k w := by
  unfold Reads
  rw [h]

theorem Tx.reads_start {t : Tx K V} {hist : Layer K (Option V)} {o : Option (ℕ × Option V)}
    (h : t.writes k = none) (ho : Answers hist k t.start o) : t.Reads hist k (o.bind Prod.snd) := by
  unfold Reads
  rw [h]
  exact ⟨o, ho, rfl⟩

theorem Writes.holds_at : Holds (w.at ts) k n ↔ n = ts ∧ w k ≠ none := by
  constructor
  · rintro ⟨v, hn, hv⟩
    exact ⟨hn, fun hw => nomatch hw.symm.trans hv⟩
  · rintro ⟨rfl, hw⟩
    obtain ⟨v, hv⟩ := Option.ne_none_iff_exists'.mp hw
    exact ⟨v, rfl, hv⟩

theorem holds_union {L M : Layer K (Option V)} :
    Holds (L ∪ M) k n ↔ Holds L k n ∨ Holds M k n := by
  unfold Holds
  simp only [Set.mem_union, exists_or]

/-- What holds of a committed transaction. -/
structure Committed.Inv (c : Committed K) (hist : Layer K (Option V)) : Prop where
  lt : c.start < c.ts
  holds : ∀ k ∈ c.keys, Holds hist k c.ts
  undisturbed : ∀ k ∈ c.keys, ∀ n, Holds hist k n → n ≤ c.start ∨ c.ts ≤ n

structure Inv (A : State K V) : Prop where
  hist_le : ∀ k n, Holds A.hist k n → n ≤ A.clock
  start_le : ∀ i t, A.txs i = some t → t.start ≤ A.clock
  log : ∀ c ∈ A.log, c.Inv A.hist
  first : A.log.Pairwise fun c c' => ∀ k ∈ c.keys, k ∈ c'.keys → c.ts ≤ c'.start

namespace Inv

theorem init : Inv (State.init : State K V) where
  hist_le _ _ h := h.elim fun _ hv => hv.elim
  start_le _ _ h := nomatch h
  log _ h := nomatch h
  first := List.Pairwise.nil

/-- Transactions may end, or go on from where they began. -/
theorem txs (h : Inv A) {txs' : ℕ → Option (Tx K V)}
    (ht : ∀ i t, txs' i = some t → t.start ≤ A.clock) : Inv { A with txs := txs' } :=
  ⟨h.hist_le, ht, h.log, h.first⟩

theorem update (h : Inv A) {i : ℕ} {o : Option (Tx K V)} (ho : ∀ t ∈ o, t.start ≤ A.clock) :
    Inv { A with txs := Function.update A.txs i o } := by
  refine h.txs fun j t hj => ?_
  by_cases hji : j = i
  · rw [hji, Function.update_self] at hj
    exact ho t hj
  · rw [Function.update_of_ne hji] at hj
    exact h.start_le j t hj

theorem remove (h : Inv A) (i : ℕ) : Inv { A with txs := Function.update A.txs i none } :=
  h.update fun _ ht => nomatch ht

/-- Versions newer than all others disturb no committed transaction. -/
theorem newer (h : Inv A) (hts : A.clock < ts) :
    Inv { A with clock := ts, hist := A.hist ∪ w.at ts } where
  hist_le k n hn := by
    rcases holds_union.mp hn with hn | hn
    · exact (h.hist_le k n hn).trans hts.le
    · exact (Writes.holds_at.mp hn).1.le
  start_le i t ht := (h.start_le i t ht).trans hts.le
  log c hc := by
    have hinv := h.log c hc
    refine ⟨hinv.lt, fun k hk => holds_union.mpr (.inl (hinv.holds k hk)), fun k hk n hn => ?_⟩
    rcases holds_union.mp hn with hn | hn
    · exact hinv.undisturbed k hk n hn
    · have hle := h.hist_le k c.ts (hinv.holds k hk)
      have hn := (Writes.holds_at.mp hn).1
      omega
  first := h.first

theorem commit (h : Inv A) {i : ℕ} {t : Tx K V} (ht : A.txs i = some t) (hts : A.clock < ts)
    (hu : t.Undisturbed A.hist) :
    Inv (⟨ts, A.hist ∪ t.writes.at ts, Function.update A.txs i none,
      A.log ++ [⟨t.start, ts, {k | t.writes k ≠ none}⟩]⟩ : State K V) := by
  have hnew := (h.newer hts (w := t.writes)).remove i
  refine ⟨hnew.hist_le, hnew.start_le, fun c hc => ?_, ?_⟩
  · rcases List.mem_append.mp hc with hc | hc
    · exact hnew.log c hc
    · rw [List.mem_singleton.mp hc]
      refine ⟨(h.start_le i t ht).trans_lt hts, fun k hk => ?_, fun k hk n hn => ?_⟩
      · exact holds_union.mpr (.inr (Writes.holds_at.mpr ⟨rfl, hk⟩))
      · rcases holds_union.mp hn with hn | hn
        · exact .inl (hu k hk n hn)
        · exact .inr (Writes.holds_at.mp hn).1.ge
  · refine List.pairwise_append.mpr ⟨h.first, List.pairwise_singleton _ _, fun c hc c' hc' k hk hk' => ?_⟩
    rw [List.mem_singleton.mp hc'] at hk' ⊢
    exact hu k hk' c.ts ((h.log c hc).holds k hk)

theorem step [DecidableEq K] (h : Inv A) (hs : Step A l B) : Inv B := by
  cases hs with
  | begin => exact h.update fun t ht => Option.some_inj.mp ht ▸ le_rfl
  | @write i t k v ht =>
      have hle : t.start ≤ A.clock := h.start_le i t ht
      apply h.update
      intro t' ht'
      cases ht'
      exact hle
  | read => exact h
  | commit ht hts hu => exact h.commit ht hts hu
  | put hts => exact h.newer hts
  | conflict => exact h.remove _
  | leave => exact h.remove _
  | stop => exact h.txs fun _ _ ht => nomatch ht
  | start ht hc =>
      refine ⟨hc, fun i t hi => ?_, h.log, h.first⟩
      rw [ht] at hi
      cases hi

theorem run [DecidableEq K] (h : Inv A) (hr : Run A ls B) : Inv B := by
  induction hr with
  | nil => exact h
  | snoc _ hs ih => exact ih.step hs

end Inv

namespace Run

variable [DecidableEq K]

theorem one (hs : Step A l B) : Run A [l] B := .snoc .nil hs

theorem append (h : Run A ls B) (h' : Run B ls' C) : Run A (ls ++ ls') C := by
  induction h' with
  | nil => rwa [List.append_nil]
  | snoc _ hs ih =>
      rw [← List.append_assoc]
      exact ih.snoc hs

end Run

end Isolation
