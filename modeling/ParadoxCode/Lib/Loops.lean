import Mathlib.Data.List.Basic

/-!
# Results and maps

The bind of `Except`, and maps with numbers for keys: insertions of all entries of a map, and what
the entry of one key gives.
-/

section

variable {α β ε ρ σ : Type}

theorem Except.ok_bind (a : α) (f : α → Except ε β) : Except.ok a >>= f = f a := rfl

theorem Except.bind_eq_ok_iff {x : Except ε α} {f : α → Except ε β} {b : β} :
    x >>= f = .ok b ↔ ∃ a, x = .ok a ∧ f a = .ok b := by
  cases x with
  | error e =>
    refine ⟨fun h => ?_, fun ⟨a, h, _⟩ => ?_⟩
    · cases h
    · cases h
  | ok a => exact ⟨fun h => ⟨a, rfl, h⟩, fun ⟨_, ha, h⟩ => Except.ok.inj ha ▸ h⟩

end

/-! ## Maps with numbers for keys -/

namespace NatMap

variable {α β ε ρ φ : Type}

section

variable (t : Std.ExtTreeMap Nat β)

theorem getElem?_insert (k a : Nat) (v : β) :
    (t.insert k v)[a]? = if k = a then some v else t[a]? := by
  rw [Std.ExtTreeMap.getElem?_insert]
  simp only [Nat.compare_eq_eq]

theorem getElem?_alter (k a : Nat) (f : Option β → Option β) :
    (t.alter k f)[a]? = if k = a then f t[k]? else t[a]? := by
  rw [Std.ExtTreeMap.getElem?_alter]
  simp only [Nat.compare_eq_eq]

theorem getElem?_filter (p : Nat → Bool) (a : Nat) :
    (t.filter fun id _ => p id)[a]? = if p a = true then t[a]? else none := by
  rw [Std.ExtTreeMap.getElem?_filter']
  cases t[a]? with
  | none => simp
  | some v => by_cases h : p a = true <;> simp [h]

theorem nodup_keys : (t.toList.map Prod.fst).Nodup := by
  refine (List.pairwise_map.mpr (t.ordered_keys_toList.imp fun h heq => ?_))
  rw [heq] at h
  simp at h

end

/-- A key that is not inserted. -/
theorem getElem?_foldl_insert {after : Nat → φ → α} {k : Nat} (todo : List (Nat × φ)) :
    ∀ start : Std.ExtTreeMap Nat α, k ∉ todo.map Prod.fst →
      (todo.foldl (fun store p => store.insert p.1 (after p.1 p.2)) start)[k]? = start[k]? := by
  induction todo with
  | nil => intro start _; rfl
  | cons p todo ih =>
    intro start hk
    rw [List.map_cons, List.mem_cons, not_or] at hk
    rw [List.foldl_cons, ih _ hk.2, getElem?_insert, if_neg (Ne.symm hk.1)]

/-- Insertions for all keys of a map. -/
theorem foldl_insert_toList (saved : Std.ExtTreeMap Nat φ) {after : Nat → φ → α}
    {start : Std.ExtTreeMap Nat α} (hstart : ∀ k : Nat, saved[k]? = none → start[k]? = none) :
    saved.toList.foldl (fun store p => store.insert p.1 (after p.1 p.2)) start =
      saved.map after := by
  have hinsert : ∀ (todo : List (Nat × φ)) (start : Std.ExtTreeMap Nat α) (p : Nat × φ),
      (todo.map Prod.fst).Nodup → p ∈ todo →
      (todo.foldl (fun store p => store.insert p.1 (after p.1 p.2)) start)[p.1]? =
        some (after p.1 p.2) := by
    intro todo
    induction todo with
    | nil => intro start p _ hp; cases hp
    | cons q todo ih =>
      intro start p hkeys hp
      rw [List.map_cons, List.nodup_cons] at hkeys
      rw [List.foldl_cons]
      rcases List.mem_cons.mp hp with rfl | hp
      · rw [getElem?_foldl_insert _ _ hkeys.1, getElem?_insert, if_pos rfl]
      · exact ih _ p hkeys.2 hp
  apply Std.ExtTreeMap.ext_getElem?
  intro k
  rw [Std.ExtTreeMap.getElem?_map]
  cases hx : saved[k]? with
  | none =>
    rw [getElem?_foldl_insert, hstart k hx]
    · rfl
    · intro hin
      obtain ⟨p, hp, rfl⟩ := List.mem_map.mp hin
      rw [Std.ExtTreeMap.mem_toList_iff_getElem?_eq_some.mp hp] at hx
      cases hx
  | some x =>
    exact hinsert _ _ (k, x) (nodup_keys saved)
      (Std.ExtTreeMap.mem_toList_iff_getElem?_eq_some.mpr hx)

/-! ## Grouping -/

/-- What the entry of one key gives. -/
theorem flatMap_key (m : Std.ExtTreeMap Nat φ) (k : Nat) (f : Nat × φ → List β) :
    (m.toList.flatMap fun p => if p.1 = k then f p else []) = (m[k]?).elim [] fun x =>
      f (k, x) := by
  cases hk : m[k]? with
  | none =>
    refine List.flatMap_eq_nil_iff.mpr fun p hp => if_neg ?_
    rintro rfl
    rw [Std.ExtTreeMap.mem_toList_iff_getElem?_eq_some.mp hp] at hk
    cases hk
  | some x =>
    have hkeys := nodup_keys m
    obtain ⟨front, back, hsplit⟩ :=
      List.append_of_mem (Std.ExtTreeMap.mem_toList_iff_getElem?_eq_some.mpr hk)
    rw [hsplit, List.map_append, List.map_cons, List.nodup_append, List.nodup_cons] at hkeys
    have hnone : ∀ others : List (Nat × φ), k ∉ others.map Prod.fst →
        (others.flatMap fun p => if p.1 = k then f p else []) = [] := fun others hothers =>
      List.flatMap_eq_nil_iff.mpr fun p hp => if_neg fun heq =>
        hothers (List.mem_map.mpr ⟨p, hp, heq⟩)
    have hfront : k ∉ front.map Prod.fst := fun hin => hkeys.2.2 k hin k List.mem_cons_self rfl
    rw [hsplit, List.flatMap_append, List.flatMap_cons, hnone front hfront, hnone back hkeys.2.1.1,
      if_pos rfl, List.nil_append, List.append_nil]
    rfl

end NatMap
