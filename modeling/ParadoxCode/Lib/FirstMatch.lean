import Mathlib.Data.List.Basic

/-!
# Changing the first match in a list

A store kept as a list: a lookup returns the first element with a property and an update changes
that element.
-/

section

variable {α β : Type} (p : α → Bool) (f : α → α)

/-- Changes the first element with a property. -/
def updateFirst : List α → List α
  | [] => []
  | a :: rest => if p a then f a :: rest else a :: updateFirst rest

variable {p f} {l : List α}

/-- The found element, with what stands before and behind it. -/
theorem split_of_find? {a : α} (h : l.find? p = some a) :
    p a = true ∧ ∃ before after, l = before ++ a :: after ∧ l.eraseP p = before ++ after ∧
      ∀ f, updateFirst p f l = before ++ f a :: after := by
  induction l with
  | nil => cases h
  | cons b l ih =>
    rw [List.find?_cons] at h
    cases hb : p b with
    | true =>
      rw [hb] at h
      obtain rfl := Option.some.inj h
      exact ⟨hb, [], l, rfl, List.eraseP_cons_of_pos hb, fun f => if_pos hb⟩
    | false =>
      rw [hb] at h
      obtain ⟨ha, before, after, rfl, herase, hupdate⟩ := ih h
      refine ⟨ha, b :: before, after, rfl, ?_, fun f => ?_⟩
      · rw [List.eraseP_cons_of_neg (by rw [hb]; decide), herase]
        rfl
      · rw [updateFirst, if_neg (by rw [hb]; decide), hupdate f]
        rfl

theorem updateFirst_of_find?_eq_none (h : l.find? p = none) : updateFirst p f l = l := by
  induction l with
  | nil => rfl
  | cons b l ih =>
    rw [List.find?_eq_none, List.forall_mem_cons] at h
    rw [updateFirst, if_neg h.1, ih (List.find?_eq_none.mpr h.2)]

/-- What an update does not change of the found element, it changes nowhere. -/
theorem map_updateFirst {g : α → β} (h : ∀ a, l.find? p = some a → g (f a) = g a) :
    (updateFirst p f l).map g = l.map g := by
  cases hl : l.find? p with
  | none => rw [updateFirst_of_find?_eq_none hl]
  | some a =>
    obtain ⟨-, before, after, rfl, -, hupdate⟩ := split_of_find? hl
    rw [hupdate, List.map_append, List.map_append, List.map_cons, List.map_cons, h a hl]

theorem updateFirst_eq_self (h : ∀ a, l.find? p = some a → f a = a) : updateFirst p f l = l := by
  have := map_updateFirst (g := fun a => a) h
  simpa using this

theorem mem_updateFirst {b : α} (h : b ∈ updateFirst p f l) :
    b ∈ l ∨ ∃ a, l.find? p = some a ∧ b = f a := by
  cases hl : l.find? p with
  | none =>
    rw [updateFirst_of_find?_eq_none hl] at h
    exact Or.inl h
  | some a =>
    obtain ⟨-, before, after, rfl, -, hupdate⟩ := split_of_find? hl
    rw [hupdate, List.mem_append, List.mem_cons] at h
    rw [List.mem_append, List.mem_cons]
    rcases h with h | h | h
    · exact Or.inl (Or.inl h)
    · exact Or.inr ⟨a, rfl, h⟩
    · exact Or.inl (Or.inr (Or.inr h))

/-- The updated element is in the list. -/
theorem updateFirst_mem {a : α} (h : l.find? p = some a) : f a ∈ updateFirst p f l := by
  obtain ⟨-, before, after, rfl, -, hupdate⟩ := split_of_find? h
  rw [hupdate]
  exact List.mem_append_right _ List.mem_cons_self

/-- A lookup of something else does not see the update. -/
theorem find?_updateFirst_of_ne {q : α → Bool}
    (h : ∀ a, p a = true → q a = false ∧ q (f a) = false) :
    (updateFirst p f l).find? q = l.find? q := by
  induction l with
  | nil => rfl
  | cons b l ih =>
    rw [updateFirst]
    split_ifs with hb
    · obtain ⟨h₁, h₂⟩ := h b hb
      rw [List.find?_cons, List.find?_cons, h₁, h₂]
    · rw [List.find?_cons, List.find?_cons, ih]

end
