import ParadoxCode.Rules.PatternSearch

/-!
# The assignment that is unique

`unique_search` searches a second time for an assignment with another hole. A state that is marked
as different is behind a route that leaves the excluded holes (`Path.different_iff`), so that a
second search without a result leaves the first one alone (`uniqueSearch_unique`).
-/

namespace ParadoxCode.Rules

variable {parts : List PatternPart} {value : Str} {predicate : MatcherId → Str → Option Bool}

/-! ## Routes that differ -/

theorem ordinal_text {part : Nat} {text : Str} (h : parts[part]? = some (.text text)) :
    ordinal parts (part + 1) = ordinal parts part := by
  unfold ordinal
  rw [List.take_add_one, h, Option.toList_some, List.countP_append]
  rfl

theorem ordinal_hole {part : Nat} {matcher : MatcherId} (h : parts[part]? = some (.hole matcher)) :
    ordinal parts (part + 1) = ordinal parts part + 1 := by
  unfold ordinal
  rw [List.take_add_one, h, Option.toList_some, List.countP_append]
  rfl

/-- The ordinal of the part that a path has come to counts its holes. -/
theorem Path.ordinal_eq {excluded : Option (List HoleSlice)} {route : List HoleSlice} {key : Key}
    (h : Path predicate parts value excluded route key) : ordinal parts key.1 = route.length := by
  induction h with
  | start => rfl
  | step _ hedge ih =>
    cases hedge with
    | text hpart _ => exact (ordinal_text hpart).trans ih
    | hole hpart _ _ _ _ =>
      rw [ordinal_hole hpart]
      exact congrArg (· + 1) ih

/-- A path is marked as different where a hole of its route is not the excluded one. -/
theorem Path.different_iff {holes route : List HoleSlice} {key : Key}
    (h : Path predicate parts value (some holes) route key) :
    key.2.2.2 = true ↔ route.reverse ≠ holes.take route.length := by
  induction h with
  | start => simp
  | @step route key key' hole hpath hedge ih =>
    cases hedge with
    | text _ _ => exact ih
    | @hole part offset stop unknown different matcher _ _ _ _ _ =>
      have hordinal : ordinal parts part = route.length := hpath.ordinal_eq
      dsimp only at ih ⊢
      rw [Bool.or_eq_true, ih, Option.toList_some, List.singleton_append, List.reverse_cons,
        List.length_cons, List.take_add_one, differs, hordinal]
      -- the routes agree so far and in the next hole, or they do not
      by_cases hroute : route.reverse = holes.take route.length
      · rw [← hroute]
        cases holes[route.length]? with
        | none => simp
        | some other => simpa using not_congr eq_comm
      · refine iff_of_true (.inl hroute) fun heq => hroute ?_
        have hlength : route.reverse.length = (holes.take route.length).length := by
          have htotal := congrArg List.length heq
          have hle := List.length_take_le route.length holes
          have hone : (holes[route.length]?).toList.length ≤ 1 := by cases holes[route.length]? <;>
            simp
          simp only [List.length_append, List.length_singleton, List.length_reverse] at htotal hle ⊢
          omega
        exact (List.append_inj heq hlength).1

/-- Assignments of one pattern have as many holes as the pattern. -/
theorem Spells.length_eq {suffix : List PatternPart} :
    ∀ {offset : Nat} {left right : List HoleSlice} {offset' : Nat},
    Spells value suffix offset left → Spells value suffix offset' right →
    left.length = right.length := by
  induction suffix with
  | nil =>
    rintro offset left right offset' ⟨-, rfl⟩ ⟨-, rfl⟩
    rfl
  | cons part suffix ih =>
    intro offset left right offset' hleft hright
    cases part with
    | text text => exact ih hleft.2 hright.2
    | hole matcher =>
      obtain ⟨stop, rest, -, -, rfl, hleft⟩ := hleft
      obtain ⟨stop', rest', -, -, rfl, hright⟩ := hright
      exact congrArg (· + 1) (ih hleft hright)

/-! ## The second search -/

variable {evaluator : HoleEvaluator} {result : SearchResult} {budget : SearchBudget}

/-- A second search without a result rejects every other assignment. -/
theorem Decides.rejected_of_ne {holes : List HoleSlice}
    (h : Decides evaluator parts value (some holes) result budget)
    (hfalse : result.matched = some false)
    (hholes : Spells value parts 0 holes) {other : List HoleSlice}
    (hother : Spells value parts 0 other)
    (hne : other ≠ holes) : Rejected value evaluator.predicate other := by
  by_contra hnone
  have hexists : ∃ unknown different, Path evaluator.predicate parts value (some holes)
    (other.reverse ++ [])
      (parts.length, value.length, unknown, different) :=
    exists_path (List.drop_zero (l := parts)) Path.start hother fun hole hhole hrejected =>
      hnone ⟨hole, hhole, hrejected⟩
  obtain ⟨unknown, different, hpath⟩ := hexists
  rw [List.append_nil] at hpath
  have hdifferent : different = true := by
    refine hpath.different_iff.mpr ?_
    rw [List.reverse_reverse, List.length_reverse, hother.length_eq hholes, List.take_length]
    exact hne
  have hmatched : result.matched ≠ some true := by
    rw [hfalse]
    decide
  obtain ⟨-, hresult⟩ := h.refuses hmatched (h.limited hfalse) _ _ _ (.inr hdifferent) hpath
  rw [hfalse] at hresult
  cases hresult

/-! ## Results without an assignment -/

variable {excluded : Option (List HoleSlice)}

theorem searchLoop_holes {evaluate : Evaluate} {fuel : Nat} :
    ∀ {search : Search} {budget budget' : SearchBudget},
    searchLoop evaluate parts value excluded fuel search budget = some (result, budget') →
      result.matched ≠ some true → result.holes = [] := by
  induction fuel with
  | zero => exact fun h => (nomatch h)
  | succ fuel ih =>
    intro search budget budget' h hmatched
    unfold searchLoop at h
    split at h
    · obtain ⟨rfl, -⟩ := Prod.mk.inj (Option.some.inj h)
      rfl
    · dsimp only at h
      split_ifs at h
      · split at h
        · cases h
        · exact ih h hmatched
        · obtain ⟨rfl, -⟩ := Prod.mk.inj (Option.some.inj h)
          rfl
        · obtain ⟨rfl, -⟩ := Prod.mk.inj (Option.some.inj h)
          exact absurd rfl hmatched
      · obtain ⟨rfl, -⟩ := Prod.mk.inj (Option.some.inj h)
        rfl

theorem searchExcept_holes {evaluate : Evaluate} {budget budget' : SearchBudget}
    (h : searchExcept evaluate parts value excluded budget = some (result, budget'))
    (hmatched : result.matched ≠ some true) : result.holes = [] := by
  unfold searchExcept at h
  dsimp only at h
  split_ifs at h
  · exact searchLoop_holes h hmatched
  · obtain ⟨rfl, -⟩ := Prod.mk.inj (Option.some.inj h)
    rfl

/-- A unique search ends. The assignment that it returns is accepted, and every other assignment is
rejected. It returns no holes where two assignments are not rejected. -/
theorem uniqueSearch_unique (evaluator : HoleEvaluator) (parts : List PatternPart) (value : Str)
    (budget : SearchBudget) :
    ∃ result budget', uniqueSearch evaluator.evaluate parts value budget = some (result, budget') ∧
      (result.matched = some true →
        Spells value parts 0 result.holes ∧ Accepted value evaluator.predicate result.holes ∧
          ∀ other, Spells value parts 0 other → other ≠ result.holes →
            Rejected value evaluator.predicate other) ∧
      ∀ left right, Spells value parts 0 left → Spells value parts 0 right → left ≠ right →
        ¬ Rejected value evaluator.predicate left → ¬ Rejected value evaluator.predicate right →
          result.matched ≠ some true ∧ result.holes = [] := by
  obtain ⟨first, budget1, hfirst, hdecides, -⟩ := searchExcept_decides evaluator parts
    value none budget
  have hsearch : search evaluator.evaluate parts value budget = some (first, budget1) := hfirst
  obtain ⟨other, budget2, hother, hdecides', -⟩ := searchExcept_decides evaluator parts value
    (some first.holes) budget1
  -- what is said of a result is said of it alone
  have hunique : ∀ result : SearchResult, (result.matched = some true →
        Spells value parts 0 result.holes ∧ Accepted value evaluator.predicate result.holes ∧
          ∀ other, Spells value parts 0 other → other ≠ result.holes →
          Rejected value evaluator.predicate other) →
      (result.matched ≠ some true → result.holes = []) →
      ∀ left right, Spells value parts 0 left → Spells value parts 0 right → left ≠ right →
        ¬ Rejected value evaluator.predicate left → ¬ Rejected value evaluator.predicate right →
          result.matched ≠ some true ∧ result.holes = [] := by
    intro result hholes hnone left right hleft hright hne hkeepLeft hkeepRight
    have hmatched : result.matched ≠ some true := by
      intro htrue
      obtain ⟨-, -, hrejected⟩ := hholes htrue
      by_cases heq : left = result.holes
      · exact hkeepRight (hrejected right hright fun h => hne (heq.trans h.symm))
      · exact hkeepLeft (hrejected left hleft heq)
    exact ⟨hmatched, hnone hmatched⟩
  unfold uniqueSearch
  rw [hsearch]
  by_cases hmatched : first.matched = some true
  · obtain ⟨hspells, haccepted⟩ := hdecides.accepted hmatched
    refine ⟨if other.matched = some false then first else ⟨none, []⟩,
      budget2, by simp [hmatched, hother], ?_⟩
    have hholes : (if other.matched = some false then first else
      (⟨none, []⟩ : SearchResult)).matched = some true →
        Spells value parts 0 (if other.matched = some false then first else
          (⟨none, []⟩ : SearchResult)).holes ∧
        Accepted value evaluator.predicate
          (if other.matched = some false then first else (⟨none, []⟩ : SearchResult)).holes ∧
        ∀ rival, Spells value parts 0 rival →
          rival ≠ (if other.matched = some false then first else
            (⟨none, []⟩ : SearchResult)).holes → Rejected value evaluator.predicate rival := by
      split_ifs with hfalse
      · exact fun _ => ⟨hspells, haccepted, fun rival hrival hne =>
          hdecides'.rejected_of_ne hfalse hspells hrival hne⟩
      · intro h
        cases h
    refine ⟨hholes, hunique _ hholes ?_⟩
    split_ifs with hfalse
    · exact fun hne => absurd hmatched hne
    · exact fun _ => rfl
  · refine ⟨first, budget1, by simp [hmatched], fun h => absurd h hmatched,
      hunique first (fun h => absurd h hmatched) ?_⟩
    exact searchExcept_holes hfirst

/-- An assignment with an empty slice is not searched for: it stands beside the one that is
returned. -/
theorem uniqueSearch_skips_empty :
    ¬ ∀ (evaluator : HoleEvaluator) (parts : List PatternPart) (value : Str)
        (budget budget' : SearchBudget)
        (result : SearchResult), uniqueSearch evaluator.evaluate parts value budget =
          some (result, budget') →
      result.matched = some true → ∀ other, SpellsLiterally value parts 0 other →
        other ≠ result.holes → Rejected value evaluator.predicate other := by
  intro h
  have hsearch : uniqueSearch acceptAll.evaluate [.hole 0, .text ['a'], .hole 1] ['a', 'a', 'a']
      (.new ⟨100, 100, 100⟩ fun _ => false) = some (⟨some true, [⟨0, 0, 1⟩, ⟨1, 2, 3⟩]⟩, _) := rfl
  obtain ⟨hole, hhole, hfalse⟩ := h acceptAll _ _ _ _ _ hsearch rfl [⟨0, 0, 0⟩, ⟨1, 1, 3⟩]
    ⟨0, _, by decide, by decide, rfl, rfl, 3, [], by decide, by decide, rfl, rfl, rfl⟩ (by decide)
  cases hfalse

end ParadoxCode.Rules
