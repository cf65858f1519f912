import Mathlib.Data.List.Destutter
import ParadoxCode.Lib.StableSort

/-!
# Leaving out repetitions

A list whose neighbours have been compared holds each element once exactly when nothing else stands
between two of its copies (`count_destutter_le_one`). Behind a stable sort that asks of each key
only the elements under it (`together_sortByKey`).
-/

namespace Dedup

open StableSort (sortByKey pairwise_sortByKey filter_key_sortByKey)

variable {α : Type*}

/-- Nothing else stands between two copies of an element. -/
def Together (a : α) (xs : List α) : Prop := ∀ b, [a, b, a].Sublist xs → b = a

variable {xs : List α}

theorem Together.sublist {a : α} {ys : List α} (h : Together a ys) (hsub : xs.Sublist ys) :
    Together a xs :=
  fun b hb => h b (hb.trans hsub)

/-- An element in front of itself changes nothing. -/
theorem together_cons_cons_self {a x : α} : Together a (x :: x :: xs) ↔ Together a (x :: xs) := by
  constructor
  · intro h
    exact h.sublist (List.sublist_cons_self x (x :: xs))
  · intro h b hb
    cases hb with
    | cons _ hb => exact h b hb
    | cons_cons _ hb =>
      cases hb with
      | cons _ hb => exact h b (hb.cons_cons a)
      | cons_cons _ _ => rfl

/-- Another element in front. -/
theorem together_cons_of_ne {a x : α} (hne : x ≠ a) : Together a (x :: xs) ↔ Together a xs := by
  constructor
  · intro h
    exact h.sublist (List.sublist_cons_self x xs)
  · intro h b hb
    cases hb with
    | cons _ hb => exact h b hb
    | cons_cons _ _ => exact absurd rfl hne

/-- The element in front of another one. -/
theorem together_cons_cons_of_ne {a y : α} (hne : a ≠ y) :
    Together a (a :: y :: xs) ↔ a ∉ y :: xs := by
  constructor
  · intro h hmem
    have hin : a ∈ xs := by
      rcases List.mem_cons.mp hmem with rfl | hin
      · exact absurd rfl hne
      · exact hin
    have hsub : [a].Sublist xs := List.singleton_sublist.mpr hin
    exact hne (h y ((hsub.cons_cons y).cons_cons a)).symm
  · intro hnot b hb
    have hin : a ∈ y :: xs := by
      cases hb with
      | cons _ hb => exact hb.subset List.mem_cons_self
      | cons_cons _ hb => exact hb.subset (List.mem_cons_of_mem b List.mem_cons_self)
    exact absurd hin hnot

/-- Only elements of the list are compared. -/
theorem destutter_congr {R S : α → α → Prop} [DecidableRel R] [DecidableRel S]
    (h : ∀ a ∈ xs, ∀ b ∈ xs, R a b ↔ S a b) : xs.destutter R = xs.destutter S := by
  have hfrom : ∀ (ys : List α) (x : α), x ∈ xs → (∀ y ∈ ys, y ∈ xs) →
    ys.destutter' R x = ys.destutter' S x := by
    intro ys
    induction ys with
    | nil => exact fun x _ _ => rfl
    | cons y ys ih =>
      intro x hx hys
      have hy := hys y List.mem_cons_self
      have hrest : ∀ z ∈ ys, z ∈ xs := fun z hz => hys z (List.mem_cons_of_mem y hz)
      by_cases hR : R x y
      · rw [List.destutter'_cons_pos ys hR, List.destutter'_cons_pos ys ((h x hx y hy).mp hR),
          ih y hy hrest]
      · rw [List.destutter'_cons_neg ys hR, List.destutter'_cons_neg ys fun hS =>
          hR ((h x hx y hy).mpr hS), ih x hx hrest]
  cases xs with
  | nil => rfl
  | cons x xs => exact hfrom xs x List.mem_cons_self fun y hy => List.mem_cons_of_mem x hy

section Destutter

variable [DecidableEq α]

theorem mem_destutter'_ne {a x : α} (xs : List α) : a ∈ xs.destutter' (· ≠ ·) x ↔ a ∈ x :: xs := by
  induction xs generalizing x with
  | nil => rw [List.destutter'_nil]
  | cons y ys ih =>
    by_cases hxy : x = y
    · subst hxy
      rw [List.destutter'_cons_neg ys (by simp), ih]
      simp
    · rw [List.destutter'_cons_pos ys hxy, List.mem_cons, ih, List.mem_cons (b := x)]

theorem mem_destutter_ne {a : α} {xs : List α} : a ∈ xs.destutter (· ≠ ·) ↔ a ∈ xs := by
  cases xs with
  | nil => simp
  | cons x xs => exact mem_destutter'_ne xs

theorem count_destutter'_le_one {a x : α} (xs : List α) :
    (xs.destutter' (· ≠ ·) x).count a ≤ 1 ↔ Together a (x :: xs) := by
  induction xs generalizing x with
  | nil =>
    rw [List.destutter'_nil]
    refine iff_of_true ?_ fun b hb => ?_
    · exact List.count_le_length.trans le_rfl
    · exact absurd hb.length_le (by simp)
  | cons y ys ih =>
    by_cases hxy : x = y
    · subst hxy
      rw [List.destutter'_cons_neg ys (by simp), together_cons_cons_self, ih]
    · rw [List.destutter'_cons_pos ys hxy]
      by_cases hxa : x = a
      · subst hxa
        rw [together_cons_cons_of_ne hxy, List.count_cons_self, ← mem_destutter'_ne ys,
          ← List.count_eq_zero]
        omega
      · rw [together_cons_of_ne hxa, List.count_cons_of_ne hxa, ih]

/-- Comparing neighbours leaves one copy of what stands together. -/
theorem count_destutter_le_one {a : α} {xs : List α} :
    (xs.destutter (· ≠ ·)).count a ≤ 1 ↔ Together a xs := by
  cases xs with
  | nil => exact iff_of_true (by simp) fun b hb => absurd hb.length_le (by simp)
  | cons x xs => exact count_destutter'_le_one xs

theorem count_destutter_eq_one {a : α} {xs : List α} :
    (xs.destutter (· ≠ ·)).count a = 1 ↔ a ∈ xs ∧ Together a xs := by
  rw [← mem_destutter_ne, ← count_destutter_le_one, ← List.count_pos_iff]
  omega

end Destutter

/-- Nothing else under its key stands between two copies of an element. -/
def TogetherBy {κ : Type*} (key : α → κ) (a : α) (xs : List α) : Prop :=
  ∀ b, key b = key a → [a, b, a].Sublist xs → b = a

/-- In a sorted list only elements under one key can stand between two copies. -/
theorem together_sortByKey {κ : Type*} [LinearOrder κ] {key : α → κ} {a : α} :
    Together a (sortByKey key xs) ↔ TogetherBy key a xs := by
  -- a triple under one key is a triple of the list exactly when it is one of the sorted list
  have htriple : ∀ b, key b = key a → ([a, b, a].Sublist (sortByKey key xs) ↔
    [a, b, a].Sublist xs) := by
    intro b hkey
    have hall : ∀ c ∈ [a, b, a], decide (key c = key a) = true := by
      intro c hc
      simp only [List.mem_cons, List.not_mem_nil, or_false] at hc
      rcases hc with rfl | rfl | rfl <;> simp [hkey]
    have hself : [a, b, a].filter (fun c => decide (key c = key a)) = [a, b, a] :=
      List.filter_eq_self.mpr hall
    constructor
    · intro hsub
      have hfilter := hsub.filter fun c => decide (key c = key a)
      rw [hself, filter_key_sortByKey] at hfilter
      exact hfilter.trans List.filter_sublist
    · intro hsub
      have hfilter := hsub.filter fun c => decide (key c = key a)
      rw [hself, ← filter_key_sortByKey] at hfilter
      exact hfilter.trans List.filter_sublist
  constructor
  · intro h b hkey hsub
    exact h b ((htriple b hkey).mpr hsub)
  · intro h b hb
    -- the keys do not fall, and the element is on both sides
    have hsorted := (pairwise_sortByKey key xs).sublist hb
    simp only [List.pairwise_cons, List.mem_cons, List.not_mem_nil, or_false,
      forall_eq_or_imp, forall_eq] at hsorted
    have hkey : key b = key a := le_antisymm hsorted.2.1 hsorted.1.1
    exact h b hkey ((htriple b hkey).mp hb)

section SortDedup

variable [DecidableEq α] {κ : Type*} [LinearOrder κ] {key : α → κ} {xs : List α}

/-- Elements that are told apart by their keys are left once. -/
theorem nodup_destutter_sortByKey (hkey : ∀ a ∈ xs, ∀ b ∈ xs, key a = key b → a = b) :
    ((sortByKey key xs).destutter (· ≠ ·)).Nodup := by
  refine List.nodup_iff_count_le_one.mpr fun a => count_destutter_le_one.mpr
    (together_sortByKey.mpr ?_)
  intro b hb hsub
  exact hkey b (hsub.subset (by simp)) a (hsub.subset (by simp)) hb

omit [DecidableEq α] in
theorem pairwise_destutter_sortByKey (R : α → α → Prop) [DecidableRel R] :
    ((sortByKey key xs).destutter R).Pairwise fun a b => key a ≤ key b :=
  (pairwise_sortByKey key xs).sublist (List.destutter_sublist _ _)

end SortDedup

end Dedup
