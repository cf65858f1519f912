import Mathlib.Data.List.Basic
import Mathlib.Data.Prod.Lex
import ParadoxCode.Lib.Dedup

/-!
# The last of the greatest

The element of a list that comes last among those with the greatest key. It is determined by the
last element under each key (`lastMax_congr`), so that neither a sort by a coarser key
(`lastMax_sortByKey`) nor leaving out repeated neighbours (`lastMax_destutter`) nor leaving out what
is below something else (`lastMax_filter`) changes it. A search from the front finds it
(`foldl_better`).
-/

namespace LastMax

open StableSort

variable {α κ : Type*} [LinearOrder κ] {key : α → κ}

/-- The last element among those with the greatest key. -/
def lastMax (key : α → κ) : List α → Option α
  | [] => none
  | a :: xs =>
    match lastMax key xs with
    | none => some a
    | some b => if key b < key a then some a else some b

example (n : Nat) : lastMax id [n] = some n := by rw [lastMax, lastMax]

/-- No key is above that of the element, and nothing with its key comes after it. -/
structure IsLastMax (key : α → κ) (a : α) (xs : List α) : Prop where
  le : ∀ b ∈ xs, key b ≤ key a
  last : (xs.filter fun b => key b = key a).getLast? = some a

variable {xs : List α}

theorem IsLastMax.mem {a : α} (h : IsLastMax key a xs) : a ∈ xs :=
  (List.mem_filter.mp (List.mem_of_getLast? h.last)).1

theorem IsLastMax.unique {a b : α} (ha : IsLastMax key a xs) (hb : IsLastMax key b xs) : a = b := by
  have hkey : key a = key b := le_antisymm (hb.le a ha.mem) (ha.le b hb.mem)
  have hlast := ha.last
  rw [hkey, hb.last] at hlast
  exact (Option.some.inj hlast).symm

theorem lastMax_eq_none : lastMax key xs = none ↔ xs = [] := by
  cases xs with
  | nil => exact iff_of_true rfl rfl
  | cons a xs =>
    refine iff_of_false (fun h => ?_) (List.cons_ne_nil a xs)
    unfold lastMax at h
    split at h
    · cases h
    · split_ifs at h

theorem isLastMax_of_lastMax {a : α} (h : lastMax key xs = some a) : IsLastMax key a xs := by
  induction xs generalizing a with
  | nil => cases h
  | cons x xs ih =>
    unfold lastMax at h
    cases hrest : lastMax key xs with
    | none =>
      rw [hrest] at h
      obtain rfl := Option.some.inj h
      obtain rfl := lastMax_eq_none.mp hrest
      exact ⟨fun b hb => (congrArg key (List.mem_singleton.mp hb)).le, by simp⟩
    | some b =>
      rw [hrest] at h
      dsimp only at h
      have hb := ih hrest
      split_ifs at h with hlt
      · -- everything behind is below
        obtain rfl := Option.some.inj h
        have hbelow : ∀ c ∈ xs, key c < key x := fun c hc => (hb.le c hc).trans_lt hlt
        refine ⟨fun c hc => ?_, ?_⟩
        · rcases List.mem_cons.mp hc with rfl | hc
          · exact le_rfl
          · exact (hbelow c hc).le
        · have hnil : (xs.filter fun c => key c = key x) = [] :=
            List.filter_eq_nil_iff.mpr fun c hc => by simpa using (hbelow c hc).ne
          rw [List.filter_cons_of_pos (by simp), hnil]
          rfl
      · obtain rfl := Option.some.inj h
        refine ⟨fun c hc => ?_, ?_⟩
        · rcases List.mem_cons.mp hc with rfl | hc
          · exact not_lt.mp hlt
          · exact hb.le c hc
        · rw [List.filter_cons]
          split_ifs
          · rw [List.getLast?_cons, hb.last]
            rfl
          · exact hb.last

theorem lastMax_eq_some {a : α} : lastMax key xs = some a ↔ IsLastMax key a xs := by
  constructor
  · exact isLastMax_of_lastMax
  · intro h
    cases hmax : lastMax key xs with
    | none =>
      have hmem := h.mem
      rw [lastMax_eq_none.mp hmax] at hmem
      exact absurd hmem List.not_mem_nil
    | some b => rw [(isLastMax_of_lastMax hmax).unique h]

/-- The element is determined by the last one under each key. -/
theorem lastMax_congr {ys : List α}
    (h : ∀ k, (xs.filter fun a => key a = k).getLast? = (ys.filter fun a => key a = k).getLast?) :
    lastMax key xs = lastMax key ys := by
  -- both lists have the same keys
  have hkeys : ∀ {as bs : List α},
      (∀ k, (as.filter fun a => key a = k).getLast? = (bs.filter fun a => key a = k).getLast?) →
        ∀ a ∈ as, ∃ b ∈ bs, key b = key a := by
    intro as bs hsame a ha
    have hne : (as.filter fun b => key b = key a) ≠ [] :=
      List.ne_nil_of_mem (List.mem_filter.mpr ⟨ha, by simp⟩)
    obtain ⟨b, hb⟩ := Option.isSome_iff_exists.mp (List.getLast?_isSome.mpr hne)
    rw [hsame] at hb
    have hmem := List.mem_filter.mp (List.mem_of_getLast? hb)
    exact ⟨b, hmem.1, by simpa using hmem.2⟩
  cases hys : lastMax key ys with
  | none =>
    rw [lastMax_eq_none] at hys ⊢
    refine List.eq_nil_iff_forall_not_mem.mpr fun a ha => ?_
    obtain ⟨b, hb, -⟩ := hkeys h a ha
    rw [hys] at hb
    exact List.not_mem_nil hb
  | some a =>
    rw [lastMax_eq_some] at hys ⊢
    refine ⟨fun b hb => ?_, (h (key a)).trans hys.last⟩
    obtain ⟨c, hc, heq⟩ := hkeys h b hb
    exact heq ▸ hys.le c hc

/-- Sorted, it is the last element. -/
theorem getLast?_sortByKey (key : α → κ) (xs : List α) : (sortByKey key xs).getLast? =
    lastMax key xs := by
  cases hxs : lastMax key xs with
  | none =>
    rw [lastMax_eq_none.mp hxs]
    rfl
  | some a =>
    obtain ⟨hle, hlast⟩ := lastMax_eq_some.mp hxs
    cases hsort : (sortByKey key xs).getLast? with
    | none =>
      have hnil := (perm_sortByKey key xs).symm
      rw [List.getLast?_eq_none_iff.mp hsort] at hnil
      have hmem := (lastMax_eq_some.mp hxs).mem
      rw [hnil.eq_nil] at hmem
      exact absurd hmem List.not_mem_nil
    | some b =>
      -- the last of the sorted list is not below the greatest, so it has its key
      obtain ⟨front, hfront⟩ := List.getLast?_eq_some_iff.mp hsort
      have hmem : ∀ c, c ∈ sortByKey key xs ↔ c ∈ xs := fun c => (perm_sortByKey key xs).mem_iff
      have hb : key b ≤ key a := hle b ((hmem b).mp (by rw [hfront]; simp))
      have ha : key a ≤ key b := by
        have hsorted := pairwise_sortByKey key xs
        have hin := (hmem a).mpr (lastMax_eq_some.mp hxs).mem
        rw [hfront] at hsorted hin
        rcases List.mem_append.mp hin with hin | hin
        · exact (List.pairwise_append.mp hsorted).2.2 a hin b (List.mem_singleton.mpr rfl)
        · rw [List.mem_singleton.mp hin]
      have hkey : key b = key a := le_antisymm hb ha
      have hfilter := filter_key_sortByKey key xs (key a)
      rw [hfront, List.filter_append, List.filter_cons_of_pos (by simpa using hkey),
        List.filter_nil] at hfilter
      rw [← hfilter, List.getLast?_append, List.getLast?_singleton, Option.some_or] at hlast
      exact hlast

/-- Leaving out what is below something that stays changes nothing. -/
theorem lastMax_filter {p : α → Bool}
    (h : ∀ b ∈ xs, p b = false → ∃ c ∈ xs, p c = true ∧ key b < key c) :
    lastMax key (xs.filter p) = lastMax key xs := by
  cases hxs : lastMax key xs with
  | none =>
    rw [lastMax_eq_none.mp hxs]
    rfl
  | some a =>
    obtain ⟨hle, hlast⟩ := lastMax_eq_some.mp hxs
    refine lastMax_eq_some.mpr ⟨fun b hb => hle b (List.mem_filter.mp hb).1, ?_⟩
    rw [List.filter_comm, List.filter_eq_self.mpr, hlast]
    intro b hb
    obtain ⟨hb, hkey⟩ := List.mem_filter.mp hb
    cases hp : p b with
    | true => rfl
    | false =>
      obtain ⟨c, hc, -, hlt⟩ := h b hb hp
      rw [decide_eq_true_eq] at hkey
      exact absurd (hle c hc) (not_le.mpr (hkey ▸ hlt))

/-- Only the order of the keys counts. -/
theorem lastMax_congr_order {κ' : Type*} [LinearOrder κ'] {key' : α → κ'}
    (h : ∀ a ∈ xs, ∀ b ∈ xs, key a ≤ key b ↔ key' a ≤ key' b) :
    lastMax key xs = lastMax key' xs := by
  cases hxs : lastMax key xs with
  | none =>
    rw [lastMax_eq_none.mp hxs]
    rfl
  | some a =>
    have ha := lastMax_eq_some.mp hxs
    refine (lastMax_eq_some.mpr ⟨fun b hb => (h b hb a ha.mem).mp (ha.le b hb), ?_⟩).symm
    rw [← ha.last]
    refine congrArg _ (List.filter_congr fun b hb => decide_eq_decide.mpr ?_)
    rw [le_antisymm_iff, le_antisymm_iff, h b hb a ha.mem, h a ha.mem b hb]

theorem lastMax_map (key : α → κ) {β : Type*} (f : β → α) (xs : List β) :
    lastMax key (xs.map f) = (lastMax (fun b => key (f b)) xs).map f := by
  induction xs with
  | nil => rfl
  | cons b xs ih =>
    rw [List.map_cons]
    unfold lastMax
    rw [ih]
    cases lastMax (fun b => key (f b)) xs with
    | none => rfl
    | some c =>
      dsimp only [Option.map_some]
      split_ifs <;> rfl

/-- Among equal keys a mark decides, or the place does that holds the marked behind the others. -/
theorem lastMax_append_comm {mark : α → Bool} {ys : List α} (hxs : ∀ a ∈ xs, mark a = false)
    (hys : ∀ a ∈ ys, mark a = true) :
    lastMax (fun a => toLex (key a, mark a)) (ys ++ xs) = lastMax key (xs ++ ys) := by
  cases hall : lastMax key (xs ++ ys) with
  | none =>
    obtain ⟨rfl, rfl⟩ := List.append_eq_nil_iff.mp (lastMax_eq_none.mp hall)
    rfl
  | some a =>
    obtain ⟨hle, hlast⟩ := lastMax_eq_some.mp hall
    refine lastMax_eq_some.mpr ⟨fun b hb => ?_, ?_⟩
    · have hb' : b ∈ xs ++ ys := List.mem_append.mpr (List.mem_append.mp hb).symm
      rcases (hle b hb').lt_or_eq with hlt | heq
      · exact Prod.Lex.toLex_le_toLex.mpr (.inl hlt)
      · refine Prod.Lex.toLex_le_toLex.mpr (.inr ⟨heq, ?_⟩)
        -- the last one is marked if anything with its key is
        cases hmark : mark b with
        | false => exact Bool.false_le _
        | true =>
          have hin : b ∈ ys := by
            rcases List.mem_append.mp hb with hin | hin
            · exact hin
            · rw [hxs b hin] at hmark
              cases hmark
          have hne : (ys.filter fun c => key c = key a) ≠ [] :=
            List.ne_nil_of_mem (List.mem_filter.mpr ⟨hin, by simpa using heq⟩)
          rw [List.filter_append, List.getLast?_append_of_ne_nil _ hne] at hlast
          rw [hys a (List.mem_filter.mp (List.mem_of_getLast? hlast)).1]
    · have hkeys : ∀ b, (toLex (key b, mark b) = toLex (key a, mark a)) ↔ key b = key a ∧
        mark b = mark a := by
        intro b
        rw [toLex_inj, Prod.mk.injEq]
      simp only [hkeys, Bool.decide_and]
      rw [List.filter_append] at hlast ⊢
      cases hmark : mark a with
      | true =>
        have hnone : (xs.filter fun b => decide (key b = key a) && decide (mark b = true)) = [] :=
          List.filter_eq_nil_iff.mpr fun b hb => by simp [hxs b hb]
        have hsame : (ys.filter fun b => decide (key b = key a) && decide (mark b = true)) =
            ys.filter fun b => decide (key b = key a) :=
          List.filter_congr fun b hb => by simp [hys b hb]
        rw [hnone, hsame, List.append_nil]
        have hne : (ys.filter fun b => decide (key b = key a)) ≠ [] := by
          intro hnil
          rw [hnil, List.append_nil] at hlast
          have hin := (List.mem_filter.mp (List.mem_of_getLast? hlast)).1
          rw [hxs a hin] at hmark
          cases hmark
        rwa [List.getLast?_append_of_ne_nil _ hne] at hlast
      | false =>
        have hnone : (ys.filter fun b => decide (key b = key a) && decide (mark b = false)) = [] :=
          List.filter_eq_nil_iff.mpr fun b hb => by simp [hys b hb]
        have hsame : (xs.filter fun b => decide (key b = key a) && decide (mark b = false)) =
            xs.filter fun b => decide (key b = key a) :=
          List.filter_congr fun b hb => by simp [hxs b hb]
        have hnil : (ys.filter fun b => decide (key b = key a)) = [] := by
          by_contra hne
          rw [List.getLast?_append_of_ne_nil _ hne] at hlast
          have hin := (List.mem_filter.mp (List.mem_of_getLast? hlast)).1
          rw [hys a hin] at hmark
          cases hmark
        rw [hnone, hsame, List.nil_append]
        rwa [hnil, List.append_nil] at hlast

/-- One step of a search from the front: an equal key takes the lead over. -/
def better (key : α → κ) (best : Option α) (a : α) : Option α :=
  match best with
  | none => some a
  | some leader => if key leader ≤ key a then some a else some leader

/-- The search from the front. -/
theorem foldl_better (xs : List α) :
    ∀ best : Option α, xs.foldl (better key) best = lastMax key (best.toList ++ xs) := by
  induction xs with
  | nil =>
    intro best
    cases best <;> rfl
  | cons a xs ih =>
    intro best
    rw [List.foldl_cons, ih]
    cases best with
    | none => rfl
    | some leader =>
      unfold better
      dsimp only
      simp only [Option.toList_some, List.singleton_append]
      split_ifs with hle
      · -- what is behind is not below the one that leads now
        simp only [Option.toList_some, List.singleton_append, lastMax]
        cases lastMax key xs with
        | none => simp [not_lt.mpr hle]
        | some b =>
          dsimp only
          split_ifs with hlt
          · simp [not_lt.mpr hle]
          · simp [not_lt.mpr (hle.trans (not_lt.mp hlt))]
      · simp only [Option.toList_some, List.singleton_append, lastMax]
        have hlt := not_le.mp hle
        cases lastMax key xs with
        | none => simp [hlt]
        | some b =>
          dsimp only
          by_cases hb : key b < key a
          · simp [hb, hlt, hb.trans hlt]
          · simp [hb]

section Destutter

variable [DecidableEq α]

theorem getLast?_filter_destutter' {p : α → Bool} (xs : List α) :
    ∀ x : α, ((xs.destutter' (· ≠ ·) x).filter p).getLast? = ((x :: xs).filter p).getLast? := by
  induction xs with
  | nil =>
    intro x
    rw [List.destutter'_nil]
  | cons y ys ih =>
    intro x
    by_cases hxy : x = y
    · subst hxy
      rw [List.destutter'_cons_neg ys (by simp), ih, @List.filter_cons _ x (x :: ys)]
      split_ifs with hp
      · rw [List.filter_cons_of_pos hp, List.getLast?_cons_cons]
      · rfl
    · rw [List.destutter'_cons_pos ys hxy, List.filter_cons, @List.filter_cons _ x]
      split_ifs
      · rw [List.getLast?_cons, List.getLast?_cons, ih]
      · exact ih y

theorem getLast?_filter_destutter {p : α → Bool} (xs : List α) :
    ((xs.destutter (· ≠ ·)).filter p).getLast? = (xs.filter p).getLast? := by
  cases xs with
  | nil => rfl
  | cons x xs => exact getLast?_filter_destutter' xs x

end Destutter

end LastMax
