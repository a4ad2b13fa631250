import Mathlib.Data.List.Forall2
import LowDB.Lib.Layered

/-! # Snapshot reads from a layered store

An abstract store: one active layer that is written, frozen layers waiting to be turned into tables,
the tables, and the versions published so far (`hist`).  A reader takes its time from the last
publication and later captures the list of memory layers; it reads those and then whatever tables
there are.  A table has only the newest version of each key of its layer, and once it is there the
layer is retired.

`Store.Inv` holds in every state (`Step.inv`).  Of a reader it says that what it captured, followed by
the current tables, reads right at its time, except for keys of which a layer retired before the
capture held both a version the reader should see and a newer one (`missed`). -/

namespace Layered

variable {K V : Type*}

/-- A reader: its time, the memory layers it has captured, the keys it has looked up in them without
an answer, and the keys whose version it may have missed. -/
structure View (K : Type*) where
  time : ℕ
  captured : Option (List ℕ)
  asked : Set K
  missed : Set K

/-- A reader that has not captured its layers misses what a retired layer held. -/
def View.miss (M : Layer K V) (w : View K) : View K :=
  { w with missed := w.missed ∪ {k | w.captured = none ∧ Superseded M k w.time} }

/-- Memory layers have numbers; `active` is the one written. -/
structure Store (K V : Type*) where
  hist : Layer K V
  visible : ℕ
  mems : ℕ → Layer K V
  active : ℕ
  frozen : List ℕ
  tables : List (Layer K V)
  views : ℕ → Option (View K)

namespace Store

/-- The layers a reader of the memory layers `ids` searches. -/
def layersOf (σ : Store K V) (ids : List ℕ) : List (Layer K V) := ids.map σ.mems ++ σ.tables

/-- The layers in use. -/
def current (σ : Store K V) : List ℕ := σ.active :: σ.frozen

inductive Step (σ : Store K V) : Store K V → Prop
  /-- Versions newer than the visible time change in the active layer. -/
  | write {m : ℕ → Layer K V} (hne : ∀ id ≠ σ.active, m id = σ.mems id)
      (hle : ∀ k n v, n ≤ σ.visible → ((k, n, v) ∈ m σ.active ↔ (k, n, v) ∈ σ.mems σ.active)) :
      Step σ { σ with mems := m }
  /-- The new versions of the active layer become visible. -/
  | publish {H : Layer K V} {t : ℕ} (hle : σ.visible ≤ t)
      (hH : ∀ k n v, (k, n, v) ∈ H ↔
        (k, n, v) ∈ σ.hist ∨ (k, n, v) ∈ σ.mems σ.active ∧ σ.visible < n)
      (ht : ∀ k n, Holds (σ.mems σ.active) k n → n ≤ t) :
      Step σ { σ with hist := H, visible := t }
  | freeze {id : ℕ} (hid : id ∉ σ.current) (hnew : σ.mems id = ∅)
      (hall : ∀ k n, Holds (σ.mems σ.active) k n → n ≤ σ.visible) :
      Step σ { σ with active := id, frozen := σ.current }
  /-- The newest versions of the oldest frozen layer become a table. -/
  | install {fs : List ℕ} {id : ℕ} (hf : σ.frozen = fs ++ [id]) :
      Step σ { σ with tables := top (σ.mems id) :: σ.tables }
  | retire {fs : List ℕ} {id : ℕ} (hf : σ.frozen = fs ++ [id])
      (ht : (∃ ts, σ.tables = top (σ.mems id) :: ts) ∨ σ.mems id = ∅) :
      Step σ { σ with frozen := fs, views := fun i => (σ.views i).map (View.miss (σ.mems id)) }
  | begin {i : ℕ} :
      Step σ { σ with views := Function.update σ.views i (some ⟨σ.visible, none, ∅, ∅⟩) }
  | capture {i : ℕ} {w : View K} (hw : σ.views i = some w) (hc : w.captured = none) :
      Step σ { σ with
        views := Function.update σ.views i (some { w with captured := some σ.current }) }
  | ask {i : ℕ} {w : View K} {ids : List ℕ} {k : K} (hw : σ.views i = some w)
      (hc : w.captured = some ids) (hk : ∀ id ∈ ids, Answers (σ.mems id) k w.time none) :
      Step σ { σ with
        views := Function.update σ.views i (some { w with asked := insert k w.asked }) }
  | forget {i : ℕ} {w : View K} {A : Set K} (hw : σ.views i = some w) (hA : A ⊆ w.asked) :
      Step σ { σ with views := Function.update σ.views i (some { w with asked := A }) }
  | leave {i : ℕ} : Step σ { σ with views := Function.update σ.views i none }

/-! ### The invariant -/

/-- What holds of a reader. -/
structure ViewInv (σ : Store K V) (w : View K) : Prop where
  le : w.time ≤ σ.visible
  begun : w.captured = none →
    ∀ k ∉ w.missed, Reads (σ.layersOf σ.current) σ.hist k w.time
  captured : ∀ ids ∈ w.captured,
    (∀ k ∉ w.missed, Reads (σ.layersOf ids) σ.hist k w.time) ∧
      ∀ id ∈ σ.current, id ∈ ids ∨ ∀ k n, Holds (σ.mems id) k n → w.time < n
  asked : ∀ k ∈ w.asked, ∃ ids, w.captured = some ids ∧
    ∀ id ∈ ids, Answers (σ.mems id) k w.time none

structure Inv (σ : Store K V) : Prop where
  hist_le : ∀ k n, Holds σ.hist k n → n ≤ σ.visible
  mem : ∀ id k n v, (k, n, v) ∈ σ.mems id → n ≤ σ.visible → (k, n, v) ∈ σ.hist
  pending : ∀ id k n, Holds (σ.mems id) k n → σ.visible < n → id = σ.active
  table : ∀ T ∈ σ.tables, T ⊆ σ.hist
  active : σ.active ∉ σ.frozen
  reads : ∀ k, Reads (σ.layersOf σ.current) σ.hist k σ.visible
  view : ∀ i w, σ.views i = some w → ViewInv σ w

variable {σ σ' : Store K V} {k : K} {s t n : ℕ} {v : V} {ids : List ℕ} {w : View K}

/-- A step that keeps what a reader at time `s` can see of the layers. -/
theorem reads_of_agree (hm : ∀ id k n v, n ≤ s → ((k, n, v) ∈ σ.mems id ↔ (k, n, v) ∈ σ'.mems id))
    (ht : σ'.tables = σ.tables)
    (hH : ∀ k n v, n ≤ s → ((k, n, v) ∈ σ.hist ↔ (k, n, v) ∈ σ'.hist))
    (h : Reads (σ.layersOf ids) σ.hist k s) : Reads (σ'.layersOf ids) σ'.hist k s := by
  apply h.congr (fun n v hn => hH k n v hn)
  unfold layersOf
  rw [ht]
  refine List.rel_append ?_ (List.forall₂_same.mpr fun _ _ _ _ _ => Iff.rfl)
  rw [List.forall₂_map_left_iff, List.forall₂_map_right_iff]
  exact List.forall₂_same.mpr fun id _ n v hn => hm id k n v hn

/-- The same for a reader, provided no layer comes into use that it may need. -/
theorem ViewInv.of_agree (h : ViewInv σ w)
    (hm : ∀ id k n v, n ≤ w.time → ((k, n, v) ∈ σ.mems id ↔ (k, n, v) ∈ σ'.mems id))
    (ht : σ'.tables = σ.tables)
    (hH : ∀ k n v, n ≤ w.time → ((k, n, v) ∈ σ.hist ↔ (k, n, v) ∈ σ'.hist))
    (hv : σ.visible ≤ σ'.visible) (hc : σ'.current = σ.current) : ViewInv σ' w where
  le := h.le.trans hv
  begun hn k hk := by
    rw [hc]
    exact reads_of_agree hm ht hH (h.begun hn k hk)
  captured ids hids := by
    obtain ⟨hr, hcur⟩ := h.captured ids hids
    refine ⟨fun k hk => reads_of_agree hm ht hH (hr k hk), ?_⟩
    intro id hid
    apply (hcur id (hc ▸ hid)).imp_right
    rintro hlt k n ⟨v, hv⟩
    by_contra hle
    have hle := Nat.le_of_not_lt hle
    exact hle.not_gt (hlt k n ⟨v, (hm id k n v hle).mpr hv⟩)
  asked k hk := by
    obtain ⟨ids, hids, hall⟩ := h.asked k hk
    exact ⟨ids, hids, fun id hid => (hall id hid).congr fun n v hn => hm id k n v hn⟩

theorem Inv.write {m : ℕ → Layer K V} (h : Inv σ) (hne : ∀ id ≠ σ.active, m id = σ.mems id)
    (hle : ∀ k n v, n ≤ σ.visible → ((k, n, v) ∈ m σ.active ↔ (k, n, v) ∈ σ.mems σ.active)) :
    Inv { σ with mems := m } := by
  have hm : ∀ id k n v, n ≤ σ.visible → ((k, n, v) ∈ σ.mems id ↔ (k, n, v) ∈ m id) := by
    intro id k n v hn
    by_cases hid : id = σ.active
    · rw [hid, hle k n v hn]
    · rw [hne id hid]
  exact {
    hist_le := h.hist_le
    mem := fun id k n v hv hn => h.mem id k n v ((hm id k n v hn).mpr hv) hn
    pending := by
      intro id k n hn hlt
      by_contra hid
      have hn : Holds (m id) k n := hn
      rw [hne id hid] at hn
      exact hid (h.pending id k n hn hlt)
    table := h.table
    active := h.active
    reads := fun k => @reads_of_agree _ _ σ { σ with mems := m } k σ.visible _ hm rfl
      (fun _ _ _ _ => Iff.rfl) (h.reads k)
    view := fun i w hw => (h.view i w hw).of_agree
      (fun id k n v hn => hm id k n v (hn.trans (h.view i w hw).le)) rfl
      (fun _ _ _ _ => Iff.rfl) le_rfl rfl }

/-- A key with new versions is answered by the active layer, any other as before. -/
theorem Inv.publish {H : Layer K V} (h : Inv σ) (hle : σ.visible ≤ t)
    (hH : ∀ k n v, (k, n, v) ∈ H ↔
      (k, n, v) ∈ σ.hist ∨ (k, n, v) ∈ σ.mems σ.active ∧ σ.visible < n)
    (ht : ∀ k n, Holds (σ.mems σ.active) k n → n ≤ t) :
    Inv { σ with hist := H, visible := t } := by
  have hagree : ∀ k n v, n ≤ σ.visible → ((k, n, v) ∈ σ.hist ↔ (k, n, v) ∈ H) := by
    intro k n v hn
    rw [hH]
    exact ⟨.inl, fun h => h.resolve_right fun h => absurd h.2 (by omega)⟩
  have hsub : σ.hist ⊆ H := fun ⟨k, n, v⟩ hx => (hH k n v).mpr (.inl hx)
  have hmem : ∀ id k n v, (k, n, v) ∈ σ.mems id → (k, n, v) ∈ H := by
    intro id k n v hv
    by_cases hn : n ≤ σ.visible
    · exact hsub (h.mem id k n v hv hn)
    · have hid := h.pending id k n ⟨v, hv⟩ (by omega)
      exact (hH k n v).mpr (.inr ⟨hid ▸ hv, by omega⟩)
  exact {
    hist_le := by
      rintro k n ⟨v, hv⟩
      cases (hH k n v).mp hv with
      | inl hv => exact (h.hist_le k n ⟨v, hv⟩).trans hle
      | inr hv => exact ht k n ⟨v, hv.1⟩
    mem := fun id k n v hv _ => hmem id k n v hv
    pending := fun id k n hn hlt => h.pending id k n hn (hle.trans_lt hlt)
    table := fun T hT => (h.table T hT).trans hsub
    active := h.active
    reads := by
      intro k
      show Reads (σ.mems σ.active :: σ.layersOf σ.frozen) H k t
      by_cases hnew : ∃ n, Holds (σ.mems σ.active) k n ∧ σ.visible < n
      · obtain ⟨n, hn, hlt⟩ := hnew
        intro o ho
        cases o with
        | none => exact absurd (ho n (hn.imp fun v hv => hmem _ _ _ _ hv)) (by have := ht k n hn; omega)
        | some x =>
            obtain ⟨m, v⟩ := x
            obtain ⟨hv, hm, hmt, hmax⟩ := ho
            have hnm := hmax n (hn.imp fun v hv => hmem _ _ _ _ hv) (ht k n hn)
            have hact : (k, m, v) ∈ σ.mems σ.active := by
              cases (hH k m v).mp hv with
              | inl hv => exact absurd (h.hist_le k m ⟨v, hv⟩) (by omega)
              | inr hv => exact hv.1
            exact .inl ⟨_, rfl, hact, ⟨v, hact⟩, hmt, fun i hi hit =>
              hmax i (hi.imp fun v hv => hmem _ _ _ _ hv) hit⟩
      · push Not at hnew
        have hstill : ∀ n, Holds H k n → n ≤ σ.visible := by
          rintro n ⟨v, hv⟩
          cases (hH k n v).mp hv with
          | inl hv => exact h.hist_le k n ⟨v, hv⟩
          | inr hv => exact hnew n ⟨v, hv.1⟩
        refine Reads.later (fun n hn _ => hstill n hn) ?_ hle
          ((h.reads k).congr_hist fun n v hn => hagree k n v hn)
        intro L hL n hn _
        have hL : L ∈ σ.current.map σ.mems ++ σ.tables := hL
        cases List.mem_append.mp hL with
        | inl hL =>
            obtain ⟨id, _, rfl⟩ := List.mem_map.mp hL
            exact hstill n (hn.imp fun v hv => hmem _ _ _ _ hv)
        | inr hL => exact hstill n (hn.mono ((h.table L hL).trans hsub))
    view := fun i w hw => (h.view i w hw).of_agree (fun _ _ _ _ _ => Iff.rfl) rfl
      (fun k n v hn => hagree k n v (hn.trans (h.view i w hw).le)) hle rfl }

/-- A new empty layer in front. -/
theorem reads_cons_empty {id : ℕ} (hnew : σ.mems id = ∅) (h : Reads (σ.layersOf ids) σ.hist k s) :
    Reads (σ.layersOf (id :: ids)) σ.hist k s := by
  intro o ho
  refine .inr ⟨?_, h o ho⟩
  rw [hnew]
  exact fun n ⟨v, hv⟩ => hv.elim

theorem Inv.freeze {id : ℕ} (h : Inv σ) (hid : id ∉ σ.current) (hnew : σ.mems id = ∅)
    (hall : ∀ k n, Holds (σ.mems σ.active) k n → n ≤ σ.visible) :
    Inv { σ with active := id, frozen := σ.current } where
  hist_le := h.hist_le
  mem := h.mem
  pending i k n hn hlt := by
    have hi := h.pending i k n hn hlt
    exact absurd (hall k n (hi ▸ hn)) hlt.not_ge
  table := h.table
  active := hid
  reads k := reads_cons_empty hnew (h.reads k)
  view i w hw := by
    have hv := h.view i w hw
    exact {
      le := hv.le
      begun := fun hn k hk => reads_cons_empty hnew (hv.begun hn k hk)
      captured := fun ids hids => ⟨(hv.captured ids hids).1, fun j hj => by
        cases List.mem_cons.mp hj with
        | inl hj =>
            refine .inr ?_
            rintro k n ⟨v, hv⟩
            have hv : (k, n, v) ∈ σ.mems j := hv
            rw [hj, hnew] at hv
            exact hv.elim
        | inr hj => exact (hv.captured ids hids).2 j hj⟩
      asked := hv.asked }

/-- The new table lies behind the layer it comes from. -/
theorem reads_install {id : ℕ} (hid : id ∈ ids) (h : Reads (σ.layersOf ids) σ.hist k s) :
    Reads (ids.map σ.mems ++ top (σ.mems id) :: σ.tables) σ.hist k s :=
  fun o ho => search_insert_below ⟨σ.mems id, List.mem_map_of_mem hid, top_subset _⟩ (h o ho)

theorem Inv.frozen_le {id n : ℕ} (h : Inv σ) (hid : id ∈ σ.frozen) (hn : Holds (σ.mems id) k n) :
    n ≤ σ.visible := by
  by_contra hlt
  have hactive := h.pending id k n hn (by omega)
  exact h.active (hactive ▸ hid)

theorem Inv.install {fs : List ℕ} {id : ℕ} (h : Inv σ) (hf : σ.frozen = fs ++ [id]) :
    Inv { σ with tables := top (σ.mems id) :: σ.tables } := by
  have hid : id ∈ σ.frozen := by rw [hf]; exact List.mem_concat_self
  have hcur : id ∈ σ.current := List.mem_cons_of_mem _ hid
  have hle : ∀ k n, Holds (σ.mems id) k n → n ≤ σ.visible := fun _ _ => h.frozen_le hid
  exact {
    hist_le := h.hist_le
    mem := h.mem
    pending := h.pending
    table := by
      intro T hT
      cases List.mem_cons.mp hT with
      | inl hT =>
          rintro ⟨k, n, v⟩ hx
          have hx := top_subset _ (hT ▸ hx)
          exact h.mem id k n v hx (hle k n ⟨v, hx⟩)
      | inr hT => exact h.table T hT
    active := h.active
    reads := fun k => reads_install hcur (h.reads k)
    view := fun i w hw => by
      have hv := h.view i w hw
      exact {
        le := hv.le
        begun := fun hn k hk => reads_install hcur (hv.begun hn k hk)
        captured := fun ids hids => by
          obtain ⟨hr, hc⟩ := hv.captured ids hids
          refine ⟨fun k hk => ?_, hc⟩
          cases hc id hcur with
          | inl hin => exact reads_install hin (hr k hk)
          | inr hlt =>
              -- the reader has not captured the layer, but cannot see anything of it
              refine fun o ho => (search_insert_of_silent ?_).mpr (hr k hk o ho)
              exact fun n hn => hlt k n (hn.mono (top_subset _))
        asked := hv.asked } }

/-- A retired layer is not missed where its table answers for it. -/
theorem reads_retire {fs : List ℕ} {id : ℕ}
    (ht : (∃ ts, σ.tables = top (σ.mems id) :: ts) ∨ σ.mems id = ∅)
    (hs : ¬ Superseded (σ.mems id) k s)
    (h : Reads (σ.layersOf (σ.active :: (fs ++ [id]))) σ.hist k s) :
    Reads (σ.layersOf (σ.active :: fs)) σ.hist k s := by
  intro o ho
  have h := h o ho
  unfold layersOf at h ⊢
  rw [← List.cons_append, List.map_append, List.append_assoc, List.map_singleton,
    List.singleton_append] at h
  cases ht with
  | inl ht =>
      obtain ⟨ts, ht⟩ := ht
      rw [ht] at h ⊢
      exact search_remove_above_top hs h
  | inr ht =>
      refine (search_insert_of_silent ?_).mp h
      rw [ht]
      exact fun n ⟨v, hv⟩ => hv.elim

theorem Inv.retire {fs : List ℕ} {id : ℕ} (h : Inv σ) (hf : σ.frozen = fs ++ [id])
    (ht : (∃ ts, σ.tables = top (σ.mems id) :: ts) ∨ σ.mems id = ∅) :
    Inv { σ with frozen := fs, views := fun i => (σ.views i).map (View.miss (σ.mems id)) } := by
  have hid : id ∈ σ.frozen := by rw [hf]; exact List.mem_concat_self
  have hcur : σ.current = σ.active :: (fs ++ [id]) := by rw [current, hf]
  have hle : ∀ k n, Holds (σ.mems id) k n → n ≤ σ.visible := fun _ _ => h.frozen_le hid
  exact {
    hist_le := h.hist_le
    mem := h.mem
    pending := h.pending
    table := h.table
    active := fun hin => h.active (by rw [hf]; exact List.mem_append_left _ hin)
    reads := fun k => by
      refine reads_retire ht ?_ (hcur ▸ h.reads k)
      exact fun ⟨_, n, hn, hlt⟩ => hlt.not_ge (hle k n hn)
    view := fun i w' hw' => by
      obtain ⟨w, hw, rfl⟩ := Option.map_eq_some_iff.mp hw'
      have hv := h.view i w hw
      exact {
        le := hv.le
        begun := fun hn k hk => by
          have hk : ¬ (k ∈ w.missed ∨ w.captured = none ∧ Superseded (σ.mems id) k w.time) := hk
          push Not at hk
          exact reads_retire ht (hk.2 hn) (hcur ▸ hv.begun hn k hk.1)
        captured := fun ids hids => by
          refine ⟨fun k hk => (hv.captured ids hids).1 k fun h => hk (.inl h), ?_⟩
          intro j hj
          apply (hv.captured ids hids).2 j
          rw [hcur]
          cases List.mem_cons.mp hj with
          | inl hj => exact hj ▸ List.mem_cons_self
          | inr hj => exact List.mem_cons_of_mem _ (List.mem_append_left _ hj)
        asked := hv.asked } }

/-- A step of one reader. -/
theorem Inv.setView {i : ℕ} {o : Option (View K)} (h : Inv σ) (ho : ∀ w ∈ o, ViewInv σ w) :
    Inv { σ with views := Function.update σ.views i o } where
  hist_le := h.hist_le
  mem := h.mem
  pending := h.pending
  table := h.table
  active := h.active
  reads := h.reads
  view j w hw := by
    have hv : ViewInv σ w := by
      by_cases hj : j = i
      · subst hj
        exact ho w ((Function.update_self j o σ.views).symm.trans hw)
      · exact h.view j w ((Function.update_of_ne hj o σ.views).symm.trans hw)
    exact ⟨hv.le, hv.begun, hv.captured, hv.asked⟩

/-- Every step keeps the invariant. -/
theorem Step.inv (h : Inv σ) (hs : Step σ σ') : Inv σ' := by
  cases hs with
  | write hne hle => exact h.write hne hle
  | publish hle hH ht => exact h.publish hle hH ht
  | freeze hid hnew hall => exact h.freeze hid hnew hall
  | install hf => exact h.install hf
  | retire hf ht => exact h.retire hf ht
  | begin =>
      apply h.setView
      intro w hw
      cases hw
      exact {
        le := le_rfl
        begun := fun _ k _ => h.reads k
        captured := fun _ h => nomatch h
        asked := fun _ h => h.elim }
  | capture hw hc =>
      apply h.setView
      intro w' hw'
      cases hw'
      have hv := h.view _ _ hw
      exact {
        le := hv.le
        begun := fun h => nomatch h
        captured := fun ids hids => by
          cases hids
          exact ⟨hv.begun hc, fun id hid => .inl hid⟩
        asked := fun k hk => by
          obtain ⟨ids, hids, _⟩ := hv.asked k hk
          exact nomatch hc.symm.trans hids }
  | ask hw hc hk =>
      apply h.setView
      intro w' hw'
      cases hw'
      have hv := h.view _ _ hw
      refine ⟨hv.le, hv.begun, hv.captured, ?_⟩
      intro k' hk'
      cases hk' with
      | inl hk' =>
          subst hk'
          exact ⟨_, hc, hk⟩
      | inr hk' => exact hv.asked k' hk'
  | forget hw hA =>
      apply h.setView
      intro w' hw'
      cases hw'
      have hv := h.view _ _ hw
      exact ⟨hv.le, hv.begun, hv.captured, fun k hk => hv.asked k (hA hk)⟩
  | leave => exact h.setView fun _ h => nomatch h

/-! ### What readers find -/

/-- The published versions a reader may see do not change. -/
theorem Step.hist_iff (hs : Step σ σ') (hn : n ≤ σ.visible) :
    (k, n, v) ∈ σ'.hist ↔ (k, n, v) ∈ σ.hist := by
  cases hs with
  | publish hle hH ht =>
      rw [hH]
      exact ⟨fun h => h.resolve_right fun h => h.2.not_ge hn, .inl⟩
  | _ => exact Iff.rfl

theorem Step.visible_le (hs : Step σ σ') : σ.visible ≤ σ'.visible := by
  cases hs with
  | publish hle => exact hle
  | _ => exact le_rfl

variable {i : ℕ} {o : Option (ℕ × V)}

/-- What a reader finds in its memory layers is what it is to find. -/
theorem Inv.answers_mems (h : Inv σ) (hf : ∀ id, Functional (σ.mems id))
    (hT : ∀ T ∈ σ.tables, Functional T) (hw : σ.views i = some w) (hc : w.captured = some ids)
    (hk : k ∉ w.missed) (ho : o ≠ none) (hs : Search (ids.map σ.mems) k w.time o) :
    Answers σ.hist k w.time o := by
  refine (((h.view i w hw).captured ids hc).1 k hk).answers ?_
    (search_append_iff.mpr (.inl ⟨ho, hs⟩))
  intro L hL
  cases List.mem_append.mp hL with
  | inl hL =>
      obtain ⟨id, _, rfl⟩ := List.mem_map.mp hL
      exact hf id
  | inr hL => exact hT L hL

/-- What a reader finds in the tables, after finding nothing in its memory layers, is what it is to
find. -/
theorem Inv.answers_tables (h : Inv σ) (hf : ∀ id, Functional (σ.mems id))
    (hT : ∀ T ∈ σ.tables, Functional T) (hw : σ.views i = some w) (ha : k ∈ w.asked)
    (hk : k ∉ w.missed) (hs : Search σ.tables k w.time o) : Answers σ.hist k w.time o := by
  obtain ⟨ids, hc, hall⟩ := (h.view i w hw).asked k ha
  apply (((h.view i w hw).captured ids hc).1 k hk).answers
  · intro L hL
    cases List.mem_append.mp hL with
    | inl hL =>
        obtain ⟨id, _, rfl⟩ := List.mem_map.mp hL
        exact hf id
    | inr hL => exact hT L hL
  · refine (search_append_of_silent ?_).mpr hs
    intro L hL
    obtain ⟨id, hid, rfl⟩ := List.mem_map.mp hL
    exact hall id hid

/-- Missed or not, what a reader finds has been published. -/
theorem Inv.mem_hist (h : Inv σ) (hw : σ.views i = some w) (ids : List ℕ)
    (hs : Search (σ.layersOf ids) k w.time (some (n, v))) : (k, n, v) ∈ σ.hist := by
  obtain ⟨L, hL, hv, hn⟩ := hs.mem
  have hle := hn.trans (h.view i w hw).le
  cases List.mem_append.mp hL with
  | inl hL =>
      obtain ⟨id, _, rfl⟩ := List.mem_map.mp hL
      exact h.mem id k n v hv hle
  | inr hL => exact h.table L hL hv

end Store

end Layered
