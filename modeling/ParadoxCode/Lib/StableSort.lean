import Mathlib.Data.List.Sort

/-!
# Stable sorting by a key

A sorted list is determined by what it holds under each key, in order (`eq_of_filter_eq`), and
sorting keeps that (`filter_key_sortByKey`). So it commutes with `filter` and forgets no order
within a key. A window of keys is found from its ends (`mem_dropWhile_iff`, `mem_takeWhile_iff`).
-/

namespace StableSort

variable {α κ : Type*} [LinearOrder κ] {key : α → κ}

/-- The list in the order of its keys; elements with one key keep their order. -/
def sortByKey (key : α → κ) (xs : List α) : List α :=
  xs.insertionSort fun a b => key a ≤ key b

theorem perm_sortByKey (key : α → κ) (xs : List α) : (sortByKey key xs).Perm xs :=
  List.perm_insertionSort _ xs

theorem pairwise_sortByKey (key : α → κ) (xs : List α) :
    (sortByKey key xs).Pairwise fun a b => key a ≤ key b := by
  have : Std.Total fun a b : α => key a ≤ key b := ⟨fun a b => le_total (key a) (key b)⟩
  have : IsTrans α fun a b : α => key a ≤ key b := ⟨fun _ _ _ => le_trans⟩
  exact List.pairwise_insertionSort _ xs

theorem sortByKey_eq_self {xs : List α} (h : xs.Pairwise fun a b => key a ≤ key b) :
    sortByKey key xs = xs :=
  h.insertionSort_eq

/-- An element whose key is below all others comes first. -/
theorem sortByKey_cons {x : α} {xs : List α} (h : ∀ y ∈ xs, key x ≤ key y) :
    sortByKey key (x :: xs) = x :: sortByKey key xs := by
  have hperm := perm_sortByKey key xs
  unfold sortByKey at *
  rw [List.insertionSort_cons]
  cases hsorted : xs.insertionSort fun a b => key a ≤ key b with
  | nil => rfl
  | cons y ys =>
    rw [hsorted] at hperm
    exact List.orderedInsert_cons_of_le _ ys (h y (hperm.mem_iff.mp List.mem_cons_self))

/-- Sorting keeps what is under a key. -/
theorem filter_key_sortByKey (key : α → κ) (xs : List α) (k : κ) :
    ((sortByKey key xs).filter fun a => key a = k) = xs.filter fun a => key a = k := by
  have : Std.Total fun a b : α => key a ≤ key b := ⟨fun a b => le_total (key a) (key b)⟩
  have : IsTrans α fun a b : α => key a ≤ key b := ⟨fun _ _ _ => le_trans⟩
  have hsame : (xs.filter fun a => key a = k).Pairwise fun a b => key a ≤ key b := by
    refine List.pairwise_iff_forall_sublist.mpr fun {a b} hab => ?_
    have ha := hab.subset List.mem_cons_self
    have hb := hab.subset (List.mem_cons_of_mem a List.mem_cons_self)
    rw [List.mem_filter, decide_eq_true_eq] at ha hb
    rw [ha.2, hb.2]
  have hsub := List.sublist_insertionSort (r := fun a b : α => key a ≤ key b) hsame
    List.filter_sublist
  have hfilter := hsub.filter fun a => key a = k
  rw [List.filter_filter] at hfilter
  simp only [Bool.and_self] at hfilter
  refine (hfilter.eq_of_length ?_).symm
  exact (((perm_sortByKey key xs).filter _).length_eq).symm

/-- Two sorted lists with the same elements under each key, in the same order. -/
theorem eq_of_filter_eq : ∀ {xs ys : List α}, xs.Pairwise (fun a b => key a ≤ key b) →
    ys.Pairwise (fun a b => key a ≤ key b) →
    (∀ k, (xs.filter fun a => key a = k) = ys.filter fun a => key a = k) → xs = ys := by
  intro xs
  induction xs with
  | nil =>
    intro ys _ _ h
    cases ys with
    | nil => rfl
    | cons y ys =>
      have hy := h (key y)
      rw [List.filter_cons_of_pos (by simp)] at hy
      cases hy
  | cons x xs ih =>
    intro ys hxs hys h
    cases ys with
    | nil =>
      have hx := h (key x)
      rw [List.filter_cons_of_pos (by simp)] at hx
      cases hx
    | cons y ys =>
      -- each front is not above the other: it is in the other list
      have hmem : ∀ {a : α} {as bs : List α}, bs.Pairwise (fun a b => key a ≤ key b) →
          ((a :: as).filter fun b => key b = key a) = (bs.filter fun b => key b = key a) →
          ∀ b ∈ bs.head?, key b ≤ key a := by
        intro a as bs hbs hfilter b hb
        cases bs with
        | nil => cases hb
        | cons c bs =>
          obtain rfl := Option.some.inj hb
          have ha : a ∈ (c :: bs).filter fun b => key b = key a := by
            rw [← hfilter]
            exact List.mem_filter.mpr ⟨List.mem_cons_self, by simp⟩
          rcases List.mem_cons.mp (List.mem_filter.mp ha).1 with rfl | ha
          · exact le_rfl
          · exact (List.pairwise_cons.mp hbs).1 a ha
      have hyx : key y ≤ key x := hmem hys (h (key x)) y rfl
      have hxy : key x ≤ key y := hmem hxs (h (key y)).symm x rfl
      have hkey : key y = key x := le_antisymm hyx hxy
      have hfront := h (key x)
      rw [List.filter_cons_of_pos (by simp), List.filter_cons_of_pos
        (by simpa using hkey)] at hfront
      obtain ⟨rfl, hrest⟩ := List.cons.inj hfront
      refine congrArg (x :: ·) (ih (List.pairwise_cons.mp hxs).2
        (List.pairwise_cons.mp hys).2 fun k => ?_)
      by_cases hk : key x = k
      · rw [← hk]
        exact hrest
      · have hfilter := h k
        rw [List.filter_cons_of_neg (by simpa using hk),
          List.filter_cons_of_neg (by simpa using hk)] at hfilter
        exact hfilter

/-- Sorting commutes with leaving out. -/
theorem filter_sortByKey (key : α → κ) (xs : List α) (p : α → Bool) :
    (sortByKey key xs).filter p = sortByKey key (xs.filter p) := by
  refine eq_of_filter_eq ((pairwise_sortByKey key xs).filter p) (pairwise_sortByKey key _) fun k =>
    ?_
  rw [filter_key_sortByKey, List.filter_comm, filter_key_sortByKey, List.filter_comm]

/-- Lists that hold the same under each key are sorted to one. -/
theorem sortByKey_congr {xs ys : List α}
    (h : ∀ k, (xs.filter fun a => key a = k) = ys.filter fun a => key a = k) :
    sortByKey key xs = sortByKey key ys := by
  refine eq_of_filter_eq (pairwise_sortByKey key xs) (pairwise_sortByKey key ys) fun k => ?_
  rw [filter_key_sortByKey, filter_key_sortByKey, h]

/-! ## Positions -/

/-- One position is sorted in front of another. -/
def Before (key : α → κ) (xs : List α) (p q : Fin xs.length) : Prop :=
  key xs[p] < key xs[q] ∨ key xs[p] = key xs[q] ∧ p < q

theorem Before.trans {xs : List α} {p q r : Fin xs.length} (hpq : Before key xs p q)
    (hqr : Before key xs q r) : Before key xs p r := by
  unfold Before at *
  rcases hpq with hpq | ⟨hpq, hlt⟩ <;> rcases hqr with hqr | ⟨hqr, hlt'⟩
  · exact .inl (hpq.trans hqr)
  · exact .inl (hqr ▸ hpq)
  · exact .inl (hpq ▸ hqr)
  · exact .inr ⟨hpq.trans hqr, hlt.trans hlt'⟩

theorem Before.irrefl {xs : List α} (p : Fin xs.length) : ¬ Before key xs p p := by
  rintro (h | ⟨-, h⟩) <;> exact lt_irrefl _ h

/-- The positions in the order of their keys. -/
theorem pairwise_before (key : α → κ) (xs : List α) :
    (sortByKey (fun p : Fin xs.length => key xs[p]) (List.finRange xs.length)).Pairwise
      (Before key xs) := by
  refine List.pairwise_iff_forall_sublist.mpr fun {p q} hpq => ?_
  have hle := List.pairwise_iff_forall_sublist.mp (pairwise_sortByKey _ _) hpq
  rcases hle.lt_or_eq with hlt | heq
  · exact .inl hlt
  · -- under one key the positions keep their order
    have hfilter := hpq.filter fun r => key xs[r] = key xs[q]
    rw [filter_key_sortByKey, List.filter_eq_self.mpr (by simpa using heq)] at hfilter
    have hrange := (List.pairwise_lt_finRange xs.length).sublist (hfilter.trans List.filter_sublist)
    exact .inr ⟨heq, (List.pairwise_cons.mp hrange).1 q (List.mem_singleton_self q)⟩

theorem map_get_sortByKey (key : α → κ) (xs : List α) :
    (sortByKey (fun p : Fin xs.length => key xs[p]) (List.finRange xs.length)).map xs.get =
      sortByKey key xs := by
  have hmap := List.map_insertionSort (fun p q : Fin xs.length => key xs[p] ≤ key xs[q])
    (fun a b => key a ≤ key b) xs.get (List.finRange xs.length) fun _ _ _ _ => Iff.rfl
  rw [List.map_get_finRange] at hmap
  exact hmap

/-- The parts of the sorted list are the ascending sequences of positions. -/
theorem sublist_sortByKey {part xs : List α} : part.Sublist (sortByKey key xs) ↔
    ∃ positions : List (Fin xs.length), positions.Pairwise (Before key xs) ∧
    part = positions.map xs.get := by
  rw [← map_get_sortByKey, List.sublist_map_iff]
  refine exists_congr fun positions => and_congr_left fun _ => ?_
  constructor
  · exact fun hsub => (pairwise_before key xs).sublist hsub
  · intro hpairwise
    have : Std.Antisymm (Before key xs) :=
      ⟨fun p q hpq hqp => absurd (hpq.trans hqp) (Before.irrefl p)⟩
    have hnodup : positions.Nodup := hpairwise.imp
      fun {p q} (hpq : Before key xs p q) (heq : p = q) =>
      Before.irrefl q (heq ▸ hpq)
    refine List.sublist_of_subperm_of_pairwise (List.subperm_of_subset hnodup fun p _ => ?_)
      hpairwise (pairwise_before key xs)
    exact (perm_sortByKey _ _).mem_iff.mpr (List.mem_finRange p)

/-! ## Windows -/

section Window

variable {xs : List α} {bound : κ} {a : α}

theorem mem_dropWhile_iff (h : xs.Pairwise fun a b => key a ≤ key b) :
    (a ∈ xs.dropWhile fun b => decide (key b < bound)) ↔ a ∈ xs ∧ bound ≤ key a := by
  induction h with
  | nil => simp
  | @cons b bs hb _ ih =>
    rw [List.dropWhile_cons]
    split_ifs with hlt
    · rw [ih, List.mem_cons]
      constructor
      · exact fun ⟨hmem, hle⟩ => ⟨.inr hmem, hle⟩
      · rintro ⟨rfl | hmem, hle⟩
        · exact absurd (of_decide_eq_true hlt) hle.not_gt
        · exact ⟨hmem, hle⟩
    · have hle : bound ≤ key b := not_lt.mp fun h => hlt (decide_eq_true h)
      refine (and_iff_left_of_imp fun hmem => ?_).symm
      rcases List.mem_cons.mp hmem with rfl | hmem
      · exact hle
      · exact hle.trans (hb a hmem)

theorem mem_takeWhile_iff (h : xs.Pairwise fun a b => key a ≤ key b) :
    (a ∈ xs.takeWhile fun b => decide (key b < bound)) ↔ a ∈ xs ∧ key a < bound := by
  induction h with
  | nil => simp
  | @cons b bs hb _ ih =>
    rw [List.takeWhile_cons]
    split_ifs with hlt
    · rw [List.mem_cons, ih, List.mem_cons]
      constructor
      · rintro (rfl | ⟨hmem, hlt⟩)
        · exact ⟨.inl rfl, of_decide_eq_true hlt⟩
        · exact ⟨.inr hmem, hlt⟩
      · rintro ⟨rfl | hmem, hlt⟩
        · exact .inl rfl
        · exact .inr ⟨hmem, hlt⟩
    · have hle : bound ≤ key b := not_lt.mp fun h => hlt (decide_eq_true h)
      refine iff_of_false List.not_mem_nil ?_
      rintro ⟨hmem, hbelow⟩
      rcases List.mem_cons.mp hmem with rfl | hmem
      · exact hbelow.not_ge hle
      · exact hbelow.not_ge (hle.trans (hb a hmem))

end Window

end StableSort
