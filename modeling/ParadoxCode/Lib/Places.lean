import Mathlib.Data.List.Sort
import Mathlib.Order.Monotone.Basic

/-!
# Places in a list

A list is laid out by a relation of places to elements if its elements stand at ascending places.
Then elements follow one another in the list exactly if they do so at their places
(`LaidOut.triple_iff`), and a list that is put together of others is laid out by what lays out its
parts.
-/

namespace Places

variable {α β ι : Type*} [LinearOrder ι]

/-- The elements of a list stand at ascending places. -/
def LaidOut (seen : ι → α → Prop) (xs : List α) : Prop :=
  ∃ placed : List (ι × α), placed.Pairwise (fun p q => p.1 < q.1) ∧ placed.map Prod.snd = xs ∧
    ∀ i a, (i, a) ∈ placed ↔ seen i a

namespace LaidOut

variable {seen other : ι → α → Prop} {xs ys : List α}

theorem congr (h : LaidOut seen xs) (hseen : ∀ i a, seen i a ↔ other i a) : LaidOut other xs := by
  obtain ⟨placed, hpairwise, hmap, hmem⟩ := h
  exact ⟨placed, hpairwise, hmap, fun i a => (hmem i a).trans (hseen i a)⟩

theorem nil (h : ∀ i a, ¬ seen i a) : LaidOut seen [] :=
  ⟨[], .nil, rfl, fun i a => iff_of_false List.not_mem_nil (h i a)⟩

theorem singleton (i : ι) (a : α) : LaidOut (fun j b => j = i ∧ b = a) [a] :=
  ⟨[(i, a)], List.pairwise_singleton _ _, rfl, fun j b => by simp⟩

theorem map (h : LaidOut seen xs) (f : α → β) :
    LaidOut (fun i b => ∃ a, seen i a ∧ b = f a) (xs.map f) := by
  obtain ⟨placed, hpairwise, rfl, hmem⟩ := h
  refine ⟨placed.map (Prod.map id f), ?_, ?_, fun i b => ?_⟩
  · exact List.pairwise_map.mpr hpairwise
  · rw [List.map_map, List.map_map]
    rfl
  · simp only [List.mem_map, Prod.exists, Prod.map_apply, id_eq, Prod.mk.injEq, ← hmem]
    constructor
    · rintro ⟨j, a, ha, rfl, rfl⟩
      exact ⟨a, ha, rfl⟩
    · rintro ⟨a, ha, rfl⟩
      exact ⟨i, a, ha, rfl, rfl⟩

theorem mem_iff (h : LaidOut seen xs) {a : α} : a ∈ xs ↔ ∃ i, seen i a := by
  obtain ⟨placed, -, rfl, hmem⟩ := h
  simp only [List.mem_map, Prod.exists, hmem, exists_eq_right]

/-- One list behind another. -/
theorem append (hxs : LaidOut seen xs) (hys : LaidOut other ys)
    (hlt : ∀ i a, seen i a → ∀ j b, other j b → i < j) :
    LaidOut (fun i a => seen i a ∨ other i a) (xs ++ ys) := by
  obtain ⟨placed, hpairwise, rfl, hmem⟩ := hxs
  obtain ⟨placed', hpairwise', rfl, hmem'⟩ := hys
  refine ⟨placed ++ placed', ?_, List.map_append, fun i a => ?_⟩
  · refine List.pairwise_append.mpr ⟨hpairwise, hpairwise', ?_⟩
    rintro ⟨i, a⟩ hia ⟨j, b⟩ hjb
    exact hlt i a ((hmem i a).mp hia) j b ((hmem' j b).mp hjb)
  · rw [List.mem_append, hmem, hmem']

/-- The elements of a list that are kept, at the places of their indices. -/
theorem filter_map {place : ℕ → ι} (hplace : StrictMono place) (keep : β → Bool) (f : β → α)
    (zs : List β) :
    LaidOut (fun i a => ∃ k z, zs[k]? = some z ∧ keep z = true ∧ i = place k ∧ a = f z)
      ((zs.filter keep).map f) := by
  refine ⟨(zs.zipIdx.filter fun entry => keep entry.1).map fun entry => (place entry.2, f entry.1),
    ?_, ?_, ?_⟩
  · rw [List.pairwise_map]
    refine List.Pairwise.filter _ ?_
    have hidx : zs.zipIdx.Pairwise fun p q => p.2 < q.2 := by
      rw [← List.pairwise_map (f := Prod.snd) (R := (· < ·)), List.zipIdx_map_snd]
      exact List.pairwise_lt_range'
    exact hidx.imp fun h => hplace h
  · rw [List.map_map]
    conv_rhs => rw [← List.zipIdx_map_fst 0 zs, List.filter_map, List.map_map]
    rfl
  · intro i a
    simp only [List.mem_map, List.mem_filter, Prod.mk.injEq, Prod.exists,
      List.mem_zipIdx_iff_getElem?]
    constructor
    · rintro ⟨z, k, ⟨hz, hkeep⟩, rfl, rfl⟩
      exact ⟨k, z, hz, hkeep, rfl, rfl⟩
    · rintro ⟨k, z, hz, hkeep, rfl, rfl⟩
      exact ⟨z, k, ⟨hz, hkeep⟩, rfl, rfl⟩

/-- Lists one behind another, each with places above those of the lists before it. -/
theorem flatMap {seenAt : ℕ → β → ι → α → Prop} {f : β → List α} (zs : List β)
    (hzs : ∀ k z, zs[k]? = some z → LaidOut (seenAt k z) (f z))
    (hlt : ∀ k z i a, seenAt k z i a → ∀ l z' j b, k < l → seenAt l z' j b → i < j) :
    LaidOut (fun i a => ∃ k z, zs[k]? = some z ∧ seenAt k z i a) (zs.flatMap f) := by
  induction zs generalizing seenAt with
  | nil => exact nil fun i a ⟨k, z, hz, _⟩ => by cases hz
  | cons z zs ih =>
    have hhead := hzs 0 z rfl
    have htail := ih (fun k z' hz' => hzs (k + 1) z' hz')
      fun k z i a hi l z' j b hkl hj => hlt (k + 1) z i a hi (l + 1) z' j b (by omega) hj
    rw [List.flatMap_cons]
    refine (hhead.append htail ?_).congr ?_
    · rintro i a hi j b ⟨l, z', -, hj⟩
      exact hlt 0 z i a hi (l + 1) z' j b (by omega) hj
    · intro i a
      constructor
      · rintro (h | ⟨k, z', hz', h⟩)
        · exact ⟨0, z, rfl, h⟩
        · exact ⟨k + 1, z', hz', h⟩
      · rintro ⟨k, z', hz', h⟩
        cases k with
        | zero =>
          cases hz'
          exact .inl h
        | succ k => exact .inr ⟨k, z', hz', h⟩

/-- Elements of a list that follow one another stand at ascending places. -/
theorem triple_iff (h : LaidOut seen xs) {a b c : α} :
    [a, b, c].Sublist xs ↔ ∃ i j k, i < j ∧ j < k ∧ seen i a ∧ seen j b ∧ seen k c := by
  obtain ⟨placed, hpairwise, rfl, hmem⟩ := h
  constructor
  · intro hsub
    obtain ⟨sub, hsub, heq⟩ := List.sublist_map_iff.mp hsub
    obtain ⟨⟨i, a'⟩, sub, rfl⟩ := List.exists_cons_of_ne_nil
      (show sub ≠ [] from by rintro rfl; cases heq)
    obtain ⟨ha, heq⟩ := List.cons.inj heq
    obtain ⟨⟨j, b'⟩, sub, rfl⟩ := List.exists_cons_of_ne_nil
      (show sub ≠ [] from by rintro rfl; cases heq)
    obtain ⟨hb, heq⟩ := List.cons.inj heq
    obtain ⟨⟨k, c'⟩, sub, rfl⟩ := List.exists_cons_of_ne_nil
      (show sub ≠ [] from by rintro rfl; cases heq)
    obtain ⟨hc, -⟩ := List.cons.inj heq
    subst ha hb hc
    have hascending := hpairwise.sublist hsub
    simp only [List.pairwise_cons, List.mem_cons, forall_eq_or_imp] at hascending
    exact ⟨i, j, k, hascending.1.1, hascending.2.1.1, (hmem i _).mp (hsub.subset (by simp)),
      (hmem j _).mp (hsub.subset (by simp)), (hmem k _).mp (hsub.subset (by simp))⟩
  · rintro ⟨i, j, k, hij, hjk, ha, hb, hc⟩
    have hsub : [(i, a), (j, b), (k, c)].Sublist placed := by
      have hantisymm : Std.Antisymm fun p q : ι × α => p.1 < q.1 :=
        ⟨fun _ _ h h' => absurd h h'.asymm⟩
      have hascending : [(i, a), (j, b), (k, c)].Pairwise fun p q => p.1 < q.1 := by
        simp [hij, hjk, hij.trans hjk]
      have hnodup : [(i, a), (j, b), (k, c)].Nodup := hascending.imp fun h heq =>
        h.ne (congrArg Prod.fst heq)
      refine List.sublist_of_subperm_of_pairwise (List.subperm_of_subset hnodup ?_)
        hascending hpairwise
      simp [hmem, ha, hb, hc]
    exact hsub.map Prod.snd

end LaidOut

end Places
