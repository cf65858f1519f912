import Mathlib.Logic.Relation

/-!
# Orders of finishing

A list in which every element comes before all that it is related to: the order, last first, in
which a depth-first search leaves the nodes of a graph. No element of such a list is related to
itself through others.
-/

namespace ParadoxCode

variable {α : Type*} {r : α → α → Prop}

/-- Everything that an element is related to stands behind it. -/
inductive FinishOrder (r : α → α → Prop) : List α → Prop
  | nil : FinishOrder r []
  | cons {a : α} {order : List α} (hbehind : ∀ b, r a b → b ∈ order) (h : FinishOrder r order) :
    FinishOrder r (a :: order)

namespace FinishOrder

variable {order : List α}

theorem mem_of_rel (h : FinishOrder r order) {a b : α} (ha : a ∈ order)
    (hab : r a b) : b ∈ order := by
  induction h with
  | nil => cases ha
  | cons hbehind _ ih =>
    rcases List.mem_cons.mp ha with rfl | ha
    · exact List.mem_cons_of_mem _ (hbehind b hab)
    · exact List.mem_cons_of_mem _ (ih ha)

theorem mem_of_reflTransGen (h : FinishOrder r order) {a b : α} (ha : a ∈ order)
    (hab : Relation.ReflTransGen r a b) : b ∈ order := by
  induction hab with
  | refl => exact ha
  | tail _ hbc ih => exact h.mem_of_rel ih hbc

/-- Nothing in the list is related to itself through others. -/
theorem not_transGen (h : FinishOrder r order) {a : α} (ha : a ∈ order) :
    ¬Relation.TransGen r a a := by
  induction h with
  | nil => cases ha
  | @cons first rest hbehind hrest ih =>
    intro hcycle
    -- The head leads into the rest, and the rest does not lead back to it.
    have hmem : a ∈ rest := by
      rcases List.mem_cons.mp ha with rfl | ha
      · obtain ⟨b, hab, hba⟩ := Relation.TransGen.head'_iff.mp hcycle
        exact hrest.mem_of_reflTransGen (hbehind b hab) hba
      · exact ha
    exact ih hmem hcycle

end FinishOrder

end ParadoxCode
