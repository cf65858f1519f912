import Mathlib.Data.List.Basic
import Mathlib.Order.MinMax

/-!
# Edit distance

`levenshtein` is the least cost of a script of insertions, deletions and replacements
(`edits_levenshtein`, `Edits.levenshtein_le`). Scripts may be cut and reversed, so that the distance
can be read from either end.
-/

namespace EditDistance

variable {α : Type*}

/-- The texts are one script of the cost apart. -/
inductive Edits : List α → List α → Nat → Prop
  | nil : Edits [] [] 0
  | keep {xs ys : List α} {n : Nat} (x : α) : Edits xs ys n → Edits (x :: xs) (x :: ys) n
  | replace {xs ys : List α} {n : Nat} (x y : α) : Edits xs ys n → Edits (x :: xs) (y :: ys) (n + 1)
  | delete {xs ys : List α} {n : Nat} (x : α) : Edits xs ys n → Edits (x :: xs) ys (n + 1)
  | insert {xs ys : List α} {n : Nat} (y : α) : Edits xs ys n → Edits xs (y :: ys) (n + 1)

/-! ## Scripts -/

variable {xs ys : List α} {n : Nat}

theorem Edits.append {xs' ys' : List α} {n' : Nat} (h : Edits xs ys n) (h' : Edits xs' ys' n') :
    Edits (xs ++ xs') (ys ++ ys') (n + n') := by
  induction h with
  | nil => rwa [List.nil_append, List.nil_append, Nat.zero_add]
  | keep x _ ih => exact .keep x ih
  | @replace _ _ n x y _ ih =>
    rw [Nat.add_right_comm]
    exact .replace x y ih
  | delete x _ ih =>
    rw [Nat.add_right_comm]
    exact .delete x ih
  | insert y _ ih =>
    rw [Nat.add_right_comm]
    exact .insert y ih

theorem Edits.reverse {xs ys : List α} {n : Nat} (h : Edits xs ys n) :
    Edits xs.reverse ys.reverse n := by
  induction h with
  | nil => exact .nil
  | keep x _ ih =>
    rw [List.reverse_cons, List.reverse_cons]
    exact ih.append (.keep x .nil)
  | replace x y _ ih =>
    rw [List.reverse_cons, List.reverse_cons]
    exact ih.append (.replace x y .nil)
  | @delete xs ys n x _ ih =>
    have h := ih.append (.delete x .nil)
    rwa [List.append_nil, ← List.reverse_cons] at h
  | @insert xs ys n y _ ih =>
    have h := ih.append (.insert y .nil)
    rwa [List.append_nil, ← List.reverse_cons] at h

/-- A script cut behind the first part of the left text. -/
theorem Edits.split {xs' : List α} (h : Edits (xs ++ xs') ys n) :
    ∃ front back m m', ys = front ++ back ∧ n = m + m' ∧ Edits xs front m ∧ Edits xs' back m' := by
  generalize htext : xs ++ xs' = text at h
  induction h generalizing xs with
  | nil =>
    obtain ⟨rfl, rfl⟩ := List.append_eq_nil_iff.mp htext
    exact ⟨[], [], 0, 0, rfl, rfl, .nil, .nil⟩
  | @keep ws zs n x hrest ih =>
    cases xs with
    | nil =>
      rw [List.nil_append] at htext
      rw [htext]
      exact ⟨[], _, 0, n, rfl, (Nat.zero_add _).symm, .nil, .keep x hrest⟩
    | cons first rest =>
      obtain ⟨rfl, hws⟩ := List.cons.inj htext
      obtain ⟨front, back, m, m', rfl, rfl, hfront, hback⟩ := ih hws
      exact ⟨_, back, m, m', rfl, rfl, .keep first hfront, hback⟩
  | @replace ws zs n x y hrest ih =>
    cases xs with
    | nil =>
      rw [List.nil_append] at htext
      rw [htext]
      exact ⟨[], _, 0, n + 1, rfl, (Nat.zero_add _).symm, .nil, .replace x y hrest⟩
    | cons first rest =>
      obtain ⟨rfl, hws⟩ := List.cons.inj htext
      obtain ⟨front, back, m, m', rfl, rfl, hfront, hback⟩ := ih hws
      exact ⟨_, back, m + 1, m', rfl, Nat.add_right_comm m m' 1, .replace first y hfront, hback⟩
  | @delete ws zs n x hrest ih =>
    cases xs with
    | nil =>
      rw [List.nil_append] at htext
      rw [htext]
      exact ⟨[], zs, 0, n + 1, rfl, (Nat.zero_add _).symm, .nil, .delete x hrest⟩
    | cons first rest =>
      obtain ⟨rfl, hws⟩ := List.cons.inj htext
      obtain ⟨front, back, m, m', rfl, rfl, hfront, hback⟩ := ih hws
      exact ⟨front, back, m + 1, m', rfl, Nat.add_right_comm m m' 1, .delete first hfront, hback⟩
  | @insert ws zs n y hrest ih =>
    obtain ⟨front, back, m, m', rfl, rfl, hfront, hback⟩ := ih htext
    exact ⟨y :: front, back, m + 1, m', rfl, Nat.add_right_comm m m' 1, .insert y hfront, hback⟩

theorem Edits.length_le (h : Edits xs ys n) :
    xs.length ≤ ys.length + n ∧ ys.length ≤ xs.length + n := by
  induction h with
  | nil => exact ⟨le_rfl, le_rfl⟩
  | keep x _ ih =>
    rw [List.length_cons, List.length_cons]
    omega
  | replace x y _ ih =>
    rw [List.length_cons, List.length_cons]
    omega
  | delete x _ ih =>
    rw [List.length_cons]
    omega
  | insert y _ ih =>
    rw [List.length_cons]
    omega

theorem Edits.eq_of_zero (h : Edits xs ys n) (hzero : n = 0) : xs = ys := by
  induction h with
  | nil => rfl
  | keep x _ ih => rw [ih hzero]
  | replace => cases hzero
  | delete => cases hzero
  | insert => cases hzero


theorem edits_nil_left (ys : List α) : Edits [] ys ys.length := by
  induction ys with
  | nil => exact .nil
  | cons y ys ih => exact .insert y ih

theorem edits_nil_right (xs : List α) : Edits xs [] xs.length := by
  induction xs with
  | nil => exact .nil
  | cons x xs ih => exact .delete x ih

/-! ## Distance -/

variable [DecidableEq α]

/-- The least number of edits. -/
def levenshtein : List α → List α → Nat
  | [], ys => ys.length
  | x :: xs, [] => (x :: xs).length
  | x :: xs, y :: ys =>
    min (min (levenshtein xs (y :: ys) + 1) (levenshtein (x :: xs) ys + 1))
      (levenshtein xs ys + if x = y then 0 else 1)
termination_by xs ys => xs.length + ys.length

@[simp] theorem levenshtein_nil_left (ys : List α) : levenshtein [] ys = ys.length := by
  rw [levenshtein]

@[simp] theorem levenshtein_nil_right (xs : List α) : levenshtein xs [] = xs.length := by
  cases xs <;> rw [levenshtein]

theorem levenshtein_cons_cons (x y : α) (xs ys : List α) : levenshtein (x :: xs) (y :: ys) =
    min (min (levenshtein xs (y :: ys) + 1) (levenshtein (x :: xs) ys + 1))
      (levenshtein xs ys + if x = y then 0 else 1) := by
  rw [levenshtein]

theorem levenshtein_cons_left_le (x : α) (xs ys : List α) :
    levenshtein (x :: xs) ys ≤ levenshtein xs ys + 1 := by
  cases ys with
  | nil => simp
  | cons y ys =>
    rw [levenshtein_cons_cons]
    exact (min_le_left _ _).trans (min_le_left _ _)

theorem levenshtein_cons_right_le (y : α) (xs ys : List α) :
    levenshtein xs (y :: ys) ≤ levenshtein xs ys + 1 := by
  cases xs with
  | nil => simp
  | cons x xs =>
    rw [levenshtein_cons_cons]
    exact (min_le_left _ _).trans (min_le_right _ _)

theorem edits_levenshtein (xs ys : List α) : Edits xs ys (levenshtein xs ys) := by
  induction xs, ys using levenshtein.induct with
  | case1 ys =>
    rw [levenshtein_nil_left]
    exact edits_nil_left ys
  | case2 x xs =>
    rw [levenshtein_nil_right]
    exact edits_nil_right _
  | case3 x xs y ys hdelete hinsert hboth =>
    rw [levenshtein_cons_cons]
    obtain hmin | hmin := min_choice (min (levenshtein xs (y :: ys) + 1)
      (levenshtein (x :: xs) ys + 1)) (levenshtein xs ys + if x = y then 0 else 1)
    · rw [hmin]
      obtain hmin | hmin := min_choice (levenshtein xs (y :: ys) + 1) (levenshtein (x :: xs) ys + 1)
      · rw [hmin]
        exact .delete x hdelete
      · rw [hmin]
        exact .insert y hinsert
    · rw [hmin]
      split_ifs with heq
      · rw [heq]
        exact .keep y hboth
      · exact .replace x y hboth

theorem Edits.levenshtein_le (h : Edits xs ys n) : levenshtein xs ys ≤ n := by
  induction h with
  | nil => simp
  | @keep xs ys n x _ ih =>
    rw [levenshtein_cons_cons, if_pos rfl]
    exact (min_le_right _ _).trans ih
  | @replace xs ys n x y _ ih =>
    have hcost : (if x = y then 0 else 1) ≤ 1 := by split_ifs <;> omega
    rw [levenshtein_cons_cons]
    exact (min_le_right _ _).trans (by omega)
  | delete x _ ih => exact (levenshtein_cons_left_le x _ _).trans (by omega)
  | insert y _ ih => exact (levenshtein_cons_right_le y _ _).trans (by omega)

theorem levenshtein_reverse (xs ys : List α) : levenshtein xs.reverse ys.reverse =
    levenshtein xs ys := by
  refine le_antisymm (edits_levenshtein xs ys).reverse.levenshtein_le ?_
  have h := (edits_levenshtein xs.reverse ys.reverse).reverse
  rw [List.reverse_reverse, List.reverse_reverse] at h
  exact h.levenshtein_le

/-- The distance by the last elements. -/
theorem levenshtein_concat_concat (x y : α) (xs ys : List α) : levenshtein (xs ++ [x]) (ys ++ [y]) =
    min (min (levenshtein xs (ys ++ [y]) + 1) (levenshtein (xs ++ [x]) ys + 1))
      (levenshtein xs ys + if x = y then 0 else 1) := by
  rw [← levenshtein_reverse (xs ++ [x]), ← levenshtein_reverse xs (ys ++ [y]),
    ← levenshtein_reverse (xs ++ [x]) ys, ← levenshtein_reverse xs ys, List.reverse_append,
    List.reverse_append]
  exact levenshtein_cons_cons x y xs.reverse ys.reverse

theorem length_le_levenshtein (xs ys : List α) :
    xs.length ≤ ys.length + levenshtein xs ys ∧ ys.length ≤ xs.length + levenshtein xs ys :=
  (edits_levenshtein xs ys).length_le

theorem levenshtein_eq_zero_iff : levenshtein xs ys = 0 ↔ xs = ys := by
  constructor
  · intro h
    exact (edits_levenshtein xs ys).eq_of_zero h
  · rintro rfl
    induction xs with
    | nil => simp
    | cons x xs ih =>
      rw [levenshtein_cons_cons, ih, if_pos rfl]
      simp

theorem levenshtein_le_max (xs ys : List α) : levenshtein xs ys ≤ max xs.length ys.length := by
  induction xs generalizing ys with
  | nil => simp
  | cons x xs ih =>
    cases ys with
    | nil => simp
    | cons y ys =>
      have hcost : (if x = y then 0 else 1) ≤ 1 := by split_ifs <;> omega
      have hrest := ih ys
      have hmin := min_le_right (min (levenshtein xs (y :: ys) + 1) (levenshtein (x :: xs) ys + 1))
        (levenshtein xs ys + if x = y then 0 else 1)
      rw [levenshtein_cons_cons, List.length_cons, List.length_cons]
      omega

/-- A script passes every row: some front of the right text is no farther. -/
theorem exists_take_le (xs ys : List α) (i : Nat) :
    ∃ j ≤ ys.length, levenshtein (xs.take i) (ys.take j) ≤ levenshtein xs ys := by
  have h := edits_levenshtein xs ys
  rw [← List.take_append_drop i xs] at h
  obtain ⟨front, back, m, m', hys, hn, hfront, -⟩ := h.split
  rw [List.take_append_drop] at hn
  refine ⟨front.length, by rw [hys, List.length_append]; omega, ?_⟩
  rw [hys, List.take_left, ← hys]
  exact hfront.levenshtein_le.trans (by omega)

end EditDistance
