import Mathlib

/-!
# Inserting into an ordered map

A map is the list of its entries in the order of their keys. An insertion that meets its key gives
none.
-/

namespace OrderedInsert

variable {α κ : Type*} [LinearOrder κ] {key : α → κ}

/-- The map with one entry more, unless it holds the key. -/
def insertNew (key : α → κ) (x : α) : List α → Option (List α)
  | [] => some [x]
  | y :: ys =>
    if key x < key y then some (x :: y :: ys)
    else if key x = key y then none
    else (insertNew key x ys).map (y :: ·)

/-- The entries are inserted one after the other. -/
def insertAll (key : α → κ) : List α → List α → Option (List α)
  | [], ys => some ys
  | x :: xs, ys => (insertNew key x ys).bind (insertAll key xs)

/-- The keys of the entries increase. -/
def Ordered (key : α → κ) (xs : List α) : Prop := xs.Pairwise fun x y => key x < key y

theorem insertNew_perm {x : α} {ys zs : List α} (h : insertNew key x ys = some zs) :
    zs.Perm (x :: ys) := by
  induction ys generalizing zs with
  | nil =>
    cases h
    exact .refl _
  | cons y ys ih =>
    unfold insertNew at h
    split_ifs at h
    · cases h
      exact .refl _
    · obtain ⟨ws, hws, rfl⟩ := Option.map_eq_some_iff.mp h
      exact ((ih hws).cons y).trans (.swap x y ys)

theorem Ordered.insertNew {x : α} {ys zs : List α} (hys : Ordered key ys)
    (h : OrderedInsert.insertNew key x ys = some zs) : Ordered key zs := by
  induction ys generalizing zs with
  | nil =>
    cases h
    exact List.pairwise_singleton _ _
  | cons y ys ih =>
    unfold OrderedInsert.insertNew at h
    obtain ⟨hfirst, hrest⟩ := List.pairwise_cons.mp hys
    split_ifs at h with hlt hne
    · cases h
      refine List.pairwise_cons.mpr ⟨?_, hys⟩
      intro other hother
      rcases List.mem_cons.mp hother with rfl | hother
      · exact hlt
      · exact lt_trans hlt (hfirst other hother)
    · obtain ⟨ws, hws, rfl⟩ := Option.map_eq_some_iff.mp h
      refine List.pairwise_cons.mpr ⟨?_, ih hrest hws⟩
      intro other hother
      rcases List.mem_cons.mp ((insertNew_perm hws).mem_iff.mp hother) with rfl | hother
      · exact lt_of_le_of_ne (not_lt.mp hlt) (Ne.symm hne)
      · exact hfirst other hother

theorem Ordered.insertAll {xs ys zs : List α} (hys : Ordered key ys)
    (h : OrderedInsert.insertAll key xs ys = some zs) : Ordered key zs := by
  induction xs generalizing ys with
  | nil =>
    cases h
    exact hys
  | cons x xs ih =>
    obtain ⟨ws, hws, h⟩ := Option.bind_eq_some_iff.mp h
    exact ih (hys.insertNew hws) h

/-- A key above all others comes last. -/
theorem insertNew_last {x : α} {ys : List α} (h : ∀ y ∈ ys, key y < key x) :
    insertNew key x ys = some (ys ++ [x]) := by
  induction ys with
  | nil => rfl
  | cons y ys ih =>
    have hy := h y List.mem_cons_self
    unfold insertNew
    rw [if_neg (lt_asymm hy), if_neg (ne_of_gt hy), ih fun other hother =>
      h other (List.mem_cons_of_mem _ hother)]
    rfl

/-- Entries go behind the map exactly where the keys increase. -/
theorem insertAll_eq_append_iff {xs ys : List α} (hys : Ordered key ys) :
    insertAll key xs ys = some (ys ++ xs) ↔ Ordered key (ys ++ xs) := by
  constructor
  · exact hys.insertAll
  · intro h
    induction xs generalizing ys with
    | nil => rw [List.append_nil, insertAll]
    | cons x xs ih =>
      have hlast : ∀ y ∈ ys, key y < key x :=
        fun y hy => (List.pairwise_append.mp h).2.2 y hy x List.mem_cons_self
      rw [List.append_cons] at h ⊢
      unfold insertAll
      rw [insertNew_last hlast, Option.bind_some, ih (List.pairwise_append.mp h).1 h]

end OrderedInsert
