import Mathlib

/-!
# Pages of a list

A page is a window of a list, and it is cut off where the list goes on behind it. Consecutive pages
are a front of the list, and all of it once one of them is not cut off. A page can also be cut where
its elements weigh too much: `front` is what of a list is within a budget, and at least its first
element.
-/

namespace Paging

variable {α : Type*}

/-- The page of at most `limit` elements from `offset` on. -/
def page (offset limit : Nat) (xs : List α) : List α := (xs.drop offset).take limit

/-- Whether the list goes on behind a page. -/
def Truncated (offset limit : Nat) (xs : List α) : Prop := offset + limit < xs.length

instance (offset limit : Nat) (xs : List α) : Decidable (Truncated offset limit xs) :=
  inferInstanceAs (Decidable (_ < _))

theorem page_zero (limit : Nat) (xs : List α) : page 0 limit xs = xs.take limit := rfl

theorem page_sublist (offset limit : Nat) (xs : List α) : (page offset limit xs).Sublist xs :=
  (List.take_sublist _ _).trans (List.drop_sublist _ _)

/-- A page is cut off exactly if there is something on the next one. -/
theorem truncated_iff_page_ne_nil {offset limit : Nat} {xs : List α} :
    Truncated offset limit xs ↔ page (offset + limit) 1 xs ≠ [] := by
  unfold Truncated page
  rw [Ne, List.take_eq_nil_iff, List.drop_eq_nil_iff]
  omega

section Cons

variable {offset limit : Nat} {x : α} {xs : List α}

/-- An element before the page. -/
theorem page_cons_before (h : 0 < offset) : page offset limit (x :: xs) =
    page (offset - 1) limit xs := by
  obtain ⟨offset, rfl⟩ := Nat.exists_eq_succ_of_ne_zero (Nat.ne_of_gt h)
  rfl

theorem truncated_cons_before (h : 0 < offset) :
    Truncated offset limit (x :: xs) ↔ Truncated (offset - 1) limit xs := by
  unfold Truncated
  rw [List.length_cons]
  omega

/-- An element of the page. -/
theorem page_cons_taken (h : 0 < limit) : page 0 limit (x :: xs) = x :: page 0 (limit - 1) xs := by
  obtain ⟨limit, rfl⟩ := Nat.exists_eq_succ_of_ne_zero (Nat.ne_of_gt h)
  rfl

theorem truncated_cons_taken (h : 0 < limit) : Truncated 0 limit (x :: xs) ↔
    Truncated 0 (limit - 1) xs := by
  unfold Truncated
  rw [List.length_cons]
  omega

/-- An element behind the page. -/
theorem truncated_cons_behind : Truncated 0 0 (x :: xs) := Nat.succ_pos _

end Cons

/-- Consecutive pages are a front of the list. -/
theorem flatMap_page (limit n : Nat) (xs : List α) :
    (List.range n).flatMap (fun i => page (i * limit) limit xs) = xs.take (n * limit) := by
  induction n with
  | zero => simp
  | succ n ih =>
    rw [List.range_succ, List.flatMap_append, ih, List.flatMap_singleton, page, Nat.succ_mul,
      List.take_add]

/-- The pages up to one that is not cut off are the list. -/
theorem flatMap_page_of_not_truncated {limit n : Nat} {xs : List α}
    (h : ¬ Truncated (n * limit) limit xs) :
    (List.range (n + 1)).flatMap (fun i => page (i * limit) limit xs) = xs := by
  unfold Truncated at h
  rw [flatMap_page, Nat.succ_mul, List.take_of_length_le (Nat.not_lt.mp h)]

/-- Some page is not cut off. -/
theorem exists_not_truncated {limit : Nat} (hlimit : 0 < limit) (xs : List α) :
    ∃ n, ¬ Truncated (n * limit) limit xs := by
  refine ⟨xs.length, Nat.not_lt.mpr ?_⟩
  exact Nat.le_trans (Nat.le_mul_of_pos_right _ hlimit) (Nat.le_add_right _ _)

/-! ## Budgets -/

section Budgets

variable (weight : α → Nat) (budget : Nat)

/-- What of a list is within a budget of which a part is used. -/
def within : Nat → List α → List α
  | _, [] => []
  | used, x :: xs => if used + weight x ≤ budget then x :: within (used + weight x) xs else []

/-- What of a list is within a budget, and at least its first element. -/
def front : List α → List α
  | [] => []
  | x :: xs => x :: within weight budget (weight x) xs

variable {weight budget}

theorem within_isPrefix (xs : List α) : ∀ used, within weight budget used xs <+: xs := by
  induction xs with
  | nil => exact fun _ => List.prefix_rfl
  | cons x xs ih =>
    intro used
    unfold within
    split_ifs
    · exact (List.prefix_cons_inj x).mpr (ih _)
    · exact List.nil_prefix

theorem front_isPrefix (xs : List α) : front weight budget xs <+: xs := by
  cases xs with
  | nil => exact List.prefix_rfl
  | cons x xs => exact (List.prefix_cons_inj x).mpr (within_isPrefix xs _)

theorem sum_within_le (xs : List α) : ∀ {used}, used ≤ budget →
    used + ((within weight budget used xs).map weight).sum ≤ budget := by
  induction xs with
  | nil => exact fun h => h
  | cons x xs ih =>
    intro used h
    unfold within
    split_ifs with hx
    · rw [List.map_cons, List.sum_cons, ← Nat.add_assoc]
      exact ih hx
    · exact h

/-- Where each element is within the budget, so is the front. -/
theorem sum_front_le (h : ∀ x, weight x ≤ budget) (xs : List α) :
    ((front weight budget xs).map weight).sum ≤ budget := by
  cases xs with
  | nil => exact Nat.zero_le _
  | cons x xs => exact sum_within_le xs (h x)

theorem length_front_pos {xs : List α} (h : xs ≠ []) : 0 < (front weight budget xs).length := by
  cases xs with
  | nil => exact absurd rfl h
  | cons x xs => exact Nat.succ_pos _

end Budgets

end Paging
