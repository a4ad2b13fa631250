import Mathlib.Data.List.Nodup
import Mathlib.Tactic.Common

/-! # Linearizability

Operations on a shared object overlap; of each the history shows when it was called and what it
returned.  The history is linearizable if the operations can be put in one order in which a single
client would have got the same answers, and in which an operation that had returned before another
one was called comes first.

`Points O h order s` says that `order` is such an order for `h` and ends in the state `s`.  It is kept
as an invariant of an implementation: a call and a return add an event (`Points.call`,
`Points.ret`), and at one step between the two the operation takes its place at the end of the order
(`Points.effect`). -/

namespace Atomic

variable {σ Op R ι : Type}

/-- An object by its answers to one client. -/
structure Object (σ Op R : Type) where
  init : σ
  apply : Op → σ → R × σ

inductive Event (ι Op R : Type) where
  | call (i : ι) (op : Op)
  | ret (i : ι) (r : R)

/-- Operations one after the other, with the answers of the object: from `s` to `s'`. -/
inductive Legal (O : Object σ Op R) : σ → List (ι × Op × R) → σ → Prop
  | nil (s : σ) : Legal O s [] s
  | snoc {s s' : σ} {order : List (ι × Op × R)} (h : Legal O s order s') (i : ι) (op : Op) :
      Legal O s (order ++ [(i, op, (O.apply op s').1)]) (O.apply op s').2

/-- The operation `i` was called in `h`. -/
def Called (h : List (Event ι Op R)) (i : ι) : Prop := ∃ op, Event.call i op ∈ h

/-- The operation `i` has returned in `h`. -/
def Returned (h : List (Event ι Op R)) (i : ι) : Prop := ∃ r, Event.ret i r ∈ h

/-- `order` explains the history `h` and leads to `s`: it has the answers of one client, operations
that were called and all those that have returned, and when one had returned before another was
called it comes before it. -/
structure Points (O : Object σ Op R) (h : List (Event ι Op R)) (order : List (ι × Op × R)) (s : σ) :
    Prop where
  legal : Legal O O.init order s
  nodup : (order.map Prod.fst).Nodup
  called : ∀ x ∈ order, .call x.1 x.2.1 ∈ h
  answered : ∀ i r, .ret i r ∈ h → ∃ op, (i, op, r) ∈ order
  precedes : ∀ pre, pre <+: h → ∀ x ∈ order, ∀ y ∈ order, Returned pre x.1 → ¬ Called pre y.1 →
    [x, y].Sublist order

/-- Some order explains the history. -/
def Linearizable (O : Object σ Op R) (h : List (Event ι Op R)) : Prop :=
  ∃ order s, Points O h order s

namespace Points

variable {O : Object σ Op R} {h : List (Event ι Op R)} {order : List (ι × Op × R)} {s : σ} {i : ι}
  {op : Op} {r : R}

theorem start (O : Object σ Op R) : Points O ([] : List (Event ι Op R)) [] O.init where
  legal := .nil _
  nodup := List.nodup_nil
  called _ hx := absurd hx List.not_mem_nil
  answered _ _ hx := absurd hx List.not_mem_nil
  precedes _ _ _ hx := absurd hx List.not_mem_nil

theorem explained (p : Points O h order s) : Linearizable O h := ⟨order, s, p⟩

/-- An event is added; every operation of the order has been called before. -/
theorem event (p : Points O h order s) (e : Event ι Op R)
    (ha : ∀ i r, e = .ret i r → ∃ op, (i, op, r) ∈ order) : Points O (h ++ [e]) order s where
  legal := p.legal
  nodup := p.nodup
  called x hx := List.mem_append_left _ (p.called x hx)
  answered i r hr := by
    rcases List.mem_append.mp hr with hr | hr
    · exact p.answered i r hr
    · exact ha i r (List.mem_singleton.mp hr).symm
  precedes pre hpre x hx y hy hxr hyc := by
    rcases List.prefix_concat_iff.mp hpre with rfl | hpre
    · exact absurd ⟨y.2.1, List.mem_append_left _ (p.called y hy)⟩ hyc
    · exact p.precedes pre hpre x hx y hy hxr hyc

theorem call (p : Points O h order s) (i : ι) (op : Op) : Points O (h ++ [.call i op]) order s :=
  p.event _ fun _ _ he => nomatch he

theorem ret (p : Points O h order s) (hi : (i, op, r) ∈ order) :
    Points O (h ++ [.ret i r]) order s := by
  apply p.event
  rintro _ _ ⟨⟩
  exact ⟨op, hi⟩

/-- A called operation takes effect: from now on it is the last of the order. -/
theorem effect (p : Points O h order s) (hc : .call i op ∈ h) (hi : i ∉ order.map Prod.fst) :
    Points O h (order ++ [(i, op, (O.apply op s).1)]) (O.apply op s).2 where
  legal := p.legal.snoc i op
  nodup := by
    rw [List.map_append, List.nodup_append]
    refine ⟨p.nodup, List.nodup_singleton _, ?_⟩
    intro a ha b hb he
    rw [he, List.mem_singleton.mp hb] at ha
    exact hi ha
  called x hx := by
    rcases List.mem_append.mp hx with hx | hx
    · exact p.called x hx
    · rwa [List.mem_singleton.mp hx]
  answered j r hr := by
    obtain ⟨op, hm⟩ := p.answered j r hr
    exact ⟨op, List.mem_append_left _ hm⟩
  precedes pre hpre x hx y hy hxr hyc := by
    rcases List.mem_append.mp hx with hx | hx
    · rcases List.mem_append.mp hy with hy | hy
      · exact (p.precedes pre hpre x hx y hy hxr hyc).trans (List.sublist_append_left ..)
      · -- the new operation comes after every other one
        exact (List.singleton_sublist.mpr hx).append (List.singleton_sublist.mpr hy)
    · -- the new operation has not returned
      obtain ⟨r, hr⟩ := hxr
      rw [List.mem_singleton.mp hx] at hr
      obtain ⟨op', hm⟩ := p.answered i r (hpre.subset hr)
      exact absurd (List.mem_map_of_mem hm) hi

end Points

end Atomic
