import Mathlib.Data.Nat.Basic
import Mathlib.Logic.Relation

/-! # What a system can always come to

`LeadsTo R P Q`: from every state with `P`, the steps `R` can be taken to one with `Q`.  A measure that
some steps can always lower proves it (`LeadsTo.of_measure`), and one such fact follows another
(`LeadsTo.trans`).  What no step changes is carried along in `P` and `Q`. -/

section leads
variable {α : Type*} {R S : α → α → Prop} {P Q T : α → Prop}

/-- From every state with `P` one with `Q` can be reached. -/
def LeadsTo (R : α → α → Prop) (P Q : α → Prop) : Prop :=
  ∀ s, P s → ∃ t, Relation.ReflTransGen R s t ∧ Q t

namespace LeadsTo

theorem of_imp (h : ∀ s, P s → Q s) : LeadsTo R P Q := fun s hs => ⟨s, .refl, h s hs⟩

theorem trans (h : LeadsTo R P Q) (h' : LeadsTo R Q T) : LeadsTo R P T := by
  intro s hs
  obtain ⟨t, hst, ht⟩ := h s hs
  obtain ⟨u, htu, hu⟩ := h' t ht
  exact ⟨u, hst.trans htu, hu⟩

/-- Where the goal is not reached yet, some steps keep `P` and lower the measure. -/
theorem of_measure (μ : α → ℕ)
    (h : ∀ s, P s → ¬ Q s → ∃ t, Relation.ReflTransGen R s t ∧ P t ∧ μ t < μ s) :
    LeadsTo R P (fun s => P s ∧ Q s) := by
  intro s hs
  induction hμ : μ s using Nat.strong_induction_on generalizing s with
  | _ n ih =>
      by_cases hQ : Q s
      · exact ⟨s, .refl, hs, hQ⟩
      · obtain ⟨t, hst, ht, hlt⟩ := h s hs hQ
        obtain ⟨u, htu, hu⟩ := ih (μ t) (hμ ▸ hlt) t ht rfl
        exact ⟨u, hst.trans htu, hu⟩

end LeadsTo

end leads
