import ParadoxCode.Lib.Dedup

/-!
# Spans

Lists of elements that have a half-open span over a linear order.
-/

namespace Spans

variable {τ α : Type*} [LinearOrder α]

/-! ## Shared points -/

def Covers (start stop : τ → α) (a : τ) (p : α) : Prop := start a ≤ p ∧ p < stop a

/-- No point is in both spans. -/
def Apart (start stop : τ → α) (a b : τ) : Prop := ∀ p,
    ¬(Covers start stop a p ∧ Covers start stop b p)

/-- The span of `a` lies in that of `b`. -/
def Inside (start stop : τ → α) (a b : τ) : Prop := start b ≤ start a ∧ stop a ≤ stop b

variable {start stop : τ → α} {a b : τ} {lo hi : α} {xs ys : List τ}

theorem Apart.symm (h : Apart start stop a b) : Apart start stop b a := fun p hp => h p hp.symm

/-- A span that ends before another starts. -/
theorem apart_of_le (h : stop a ≤ start b) : Apart start stop a b := by
  rintro p ⟨ha, hb⟩
  exact absurd (ha.2.trans_le (h.trans hb.1)) (lt_irrefl p)

/-- Two spans with the bounds of one are both without points, if they are apart. -/
theorem Apart.of_same (h : Apart start stop a b) (hstart : start a = start b)
    (hstop : stop a = stop b) : Apart start stop a a := by
  rintro p ⟨hp, -⟩
  exact h p ⟨hp, hstart ▸ hp.1, hstop ▸ hp.2⟩

/-! ## Spans behind one another -/

/-- The elements follow one another between two points. -/
def Follow (start stop : τ → α) : List τ → α → α → Prop
  | [], lo, hi => lo ≤ hi
  | a :: as, lo, hi => lo ≤ start a ∧ start a ≤ stop a ∧ Follow start stop as (stop a) hi

namespace Follow

theorem le (h : Follow start stop xs lo hi) : lo ≤ hi := by
  induction xs generalizing lo with
  | nil => exact h
  | cons a as ih => exact h.1.trans (h.2.1.trans (ih h.2.2))

theorem widen {lo' hi' : α} (h : Follow start stop xs lo hi) (hlo : lo' ≤ lo) (hhi : hi ≤ hi') :
    Follow start stop xs lo' hi' := by
  induction xs generalizing lo lo' with
  | nil => exact hlo.trans (h.trans hhi)
  | cons a as ih => exact ⟨hlo.trans h.1, h.2.1, ih h.2.2 le_rfl⟩

theorem append {middle : α} (h : Follow start stop xs lo middle)
    (h' : Follow start stop ys middle hi) : Follow start stop (xs ++ ys) lo hi := by
  induction xs generalizing lo with
  | nil => exact h'.widen h le_rfl
  | cons a as ih => exact ⟨h.1, h.2.1, ih h.2.2⟩

theorem mem (h : Follow start stop xs lo hi) (ha : a ∈ xs) : lo ≤ start a ∧ stop a ≤ hi := by
  induction xs generalizing lo with
  | nil => cases ha
  | cons b bs ih =>
    obtain ⟨hlo, hle, hrest⟩ := h
    rcases List.mem_cons.mp ha with rfl | ha
    · exact ⟨hlo, hrest.le⟩
    · exact ⟨hlo.trans (hle.trans (ih hrest ha).1), (ih hrest ha).2⟩

theorem filter (p : τ → Bool) (h : Follow start stop xs lo hi) :
    Follow start stop (xs.filter p) lo hi := by
  induction xs generalizing lo with
  | nil => exact h
  | cons a as ih =>
    rw [List.filter_cons]
    split_ifs
    · exact ⟨h.1, h.2.1, ih h.2.2⟩
    · exact ih (h.2.2.widen (h.1.trans h.2.1) le_rfl)

/-- Elements may be changed that keep their spans. -/
theorem map {σ : Type*} {start' stop' : σ → α} {f : τ → σ} (hstart : ∀ a, start' (f a) = start a)
    (hstop : ∀ a, stop' (f a) = stop a) (h : Follow start stop xs lo hi) :
    Follow start' stop' (xs.map f) lo hi := by
  induction xs generalizing lo with
  | nil => exact h
  | cons a as ih =>
    refine ⟨?_, ?_, ?_⟩
    · rw [hstart]
      exact h.1
    · rw [hstart, hstop]
      exact h.2.1
    · rw [hstop]
      exact ih h.2.2

/-- Elements may be left out, or changed so that they keep their spans. -/
theorem filterMap {σ : Type*} {start' stop' : σ → α} {f : τ → Option σ}
    (hf : ∀ a b, f a = some b → start' b = start a ∧ stop' b = stop a)
    (h : Follow start stop xs lo hi) : Follow start' stop' (xs.filterMap f) lo hi := by
  induction xs generalizing lo with
  | nil => exact h
  | cons a as ih =>
    cases ha : f a with
    | none =>
      rw [List.filterMap_cons_none ha]
      exact ih (h.2.2.widen (h.1.trans h.2.1) le_rfl)
    | some b =>
      obtain ⟨hstart, hstop⟩ := hf a b ha
      rw [List.filterMap_cons_some ha]
      refine ⟨?_, ?_, ?_⟩
      · rw [hstart]
        exact h.1
      · rw [hstart, hstop]
        exact h.2.1
      · rw [hstop]
        exact ih h.2.2

/-- Each element may be replaced by elements inside it. -/
theorem flatMap {σ : Type*} {start' stop' : σ → α} {f : τ → List σ} (h : Follow start stop xs lo hi)
    (hf : ∀ a ∈ xs, Follow start' stop' (f a) (start a) (stop a)) :
    Follow start' stop' (xs.flatMap f) lo hi := by
  induction xs generalizing lo with
  | nil => exact h
  | cons a as ih =>
    rw [List.flatMap_cons]
    have hhead := (hf a List.mem_cons_self).widen h.1 le_rfl
    exact hhead.append (ih h.2.2 fun b hb => hf b (List.mem_cons_of_mem _ hb))

theorem pairwise (h : Follow start stop xs lo hi) : xs.Pairwise fun a b => stop a ≤ start b := by
  induction xs generalizing lo with
  | nil => exact .nil
  | cons a as ih => exact .cons (fun b hb => (h.2.2.mem hb).1) (ih h.2.2)

theorem pairwise_apart (h : Follow start stop xs lo hi) : xs.Pairwise (Apart start stop) :=
  h.pairwise.imp apart_of_le

theorem pairwise_start (h : Follow start stop xs lo hi) : xs.Pairwise fun a b =>
    start a ≤ start b := by
  induction xs generalizing lo with
  | nil => exact .nil
  | cons a as ih => exact .cons (fun b hb => h.2.1.trans (h.2.2.mem hb).1) (ih h.2.2)

/-- Two elements of the list share no point. -/
theorem apart (h : Follow start stop xs lo hi) (ha : a ∈ xs) (hb : b ∈ xs) (hne : a ≠ b) :
    Apart start stop a b := by
  have : Std.Symm (Apart (τ := τ) start stop) := ⟨fun _ _ => Apart.symm⟩
  exact h.pairwise_apart.forall ha hb hne

end Follow

/-! ## Sorted spans -/

section

variable [DecidableEq τ] {κ : Type*} [LinearOrder κ] {key : τ → κ}

/-- Sorting by a key that tells the spans apart and dropping repetitions leaves no two elements with
a common point exactly when no two different elements have one. -/
theorem pairwise_apart_destutter (hstart : ∀ a b, key a = key b → start a = start b)
    (hstop : ∀ a b, key a = key b → stop a = stop b) :
    ((StableSort.sortByKey key xs).destutter (· ≠ ·)).Pairwise (Apart start stop) ↔
      ∀ a ∈ xs, ∀ b ∈ xs, a ≠ b → Apart start stop a b := by
  have hmem (a : τ) : a ∈ (StableSort.sortByKey key xs).destutter (· ≠ ·) ↔ a ∈ xs :=
    (Dedup.mem_destutter_ne).trans (StableSort.perm_sortByKey key xs).mem_iff
  constructor
  · intro h a ha b hb hne
    have : Std.Symm (Apart (τ := τ) start stop) := ⟨fun _ _ => Apart.symm⟩
    exact h.forall ((hmem a).mpr ha) ((hmem b).mpr hb) hne
  · intro h
    refine List.pairwise_iff_forall_sublist.mpr fun {a b} hsub => ?_
    have ha := (hmem a).mp (hsub.subset (by simp))
    have hb := (hmem b).mp (hsub.subset (by simp))
    by_cases hne : a = b
    · subst hne
      -- two copies are left only with something else of the same span between them
      have hcount : 2 ≤ ((StableSort.sortByKey key xs).destutter (· ≠ ·)).count a :=
        (by simp : 2 ≤ [a, a].count a).trans (hsub.count_le a)
      have htwice : ¬Dedup.Together a (StableSort.sortByKey key xs) := fun htogether => by
        have := Dedup.count_destutter_le_one.mpr htogether
        omega
      rw [Dedup.together_sortByKey] at htwice
      unfold Dedup.TogetherBy at htwice
      push Not at htwice
      obtain ⟨c, hkey, hbetween, hca⟩ := htwice
      have hc : c ∈ xs := hbetween.subset (by simp)
      exact (h a ha c hc hca.symm).of_same (hstart a c hkey.symm) (hstop a c hkey.symm)
    · exact h a ha b hb hne

end

end Spans
