import ParadoxCode.Rules.PatternSearch

/-!
# What matchers answer

Unions and nested patterns answer a predicate as the holes of a pattern are required to, so that the
search may evaluate its holes with them (`evaluateCallKey_answers`).
-/

namespace ParadoxCode.Rules

open Classical

instance instLawfulBEqOptionBool : LawfulBEq (Option Bool) := Option.instLawfulBEq Bool

/-- The disjunction of three-valued answers. -/
noncomputable def anyAnswer (answers : List (Option Bool)) : Option Bool :=
  if some true ∈ answers then some true else if none ∈ answers then none else some false

/-- The answer of a pattern: some assignment is accepted, or undecided, or all are rejected. -/
noncomputable def patternAnswer (predicate : MatcherId → Str → Option Bool)
    (parts : List PatternPart) (value : Str) : Option Bool :=
  if ∃ holes, Spells value parts 0 holes ∧ Accepted value predicate holes then some true
  else if ∃ holes, Spells value parts 0 holes ∧ Undecided value predicate holes then none
  else some false

section Matchers

variable (matcherOf : MatcherId → Matcher) (query : HoleEvaluator)
  (primitive : MatcherId → Str → Option Bool)

/-- A predicate gives each matcher the answer of its parts. -/
structure Closed (predicate : MatcherId → Str → Option Bool) : Prop where
  union : ∀ id items value, matcherOf id = .union items →
    predicate id value = anyAnswer (items.map fun item => predicate item value)
  pattern : ∀ id parts value, matcherOf id = .pattern parts →
    predicate id value = patternAnswer predicate parts value
  query : ∀ id value, matcherOf id = .query → predicate id value = query.predicate id value
  primitive : ∀ id value, matcherOf id = .primitive → predicate id value = primitive id value

variable {matcherOf query primitive}

theorem patternAnswer_eq {evaluator : HoleEvaluator} {parts : List PatternPart} {value : Str}
    {result : SearchResult} {budget : SearchBudget}
    (h : Decides evaluator parts value none result budget) (hlimit : budget.limit = none) :
    result.matched = patternAnswer evaluator.predicate parts value := by
  unfold patternAnswer
  rcases hmatched : result.matched with _ | _ | _
  · rw [if_neg fun ⟨_, hspells, haccepted⟩ => h.not_accepted hmatched hlimit hspells haccepted,
      if_pos (h.exists_undecided hmatched hlimit)]
  · rw [if_neg, if_neg]
    · rintro ⟨holes, hspells, hundecided⟩
      exact hundecided.1 (h.rejected hmatched hspells)
    · rintro ⟨holes, hspells, haccepted⟩
      obtain ⟨hole, hhole, hfalse⟩ := h.rejected hmatched hspells
      rw [haccepted hole hhole] at hfalse
      cases hfalse
  · rw [if_pos ⟨_, h.accepted hmatched⟩]

/-- The loop over the alternatives of a union. -/
theorem evaluateUnion_spec (evaluator : HoleEvaluator) (value : Str) (items : List MatcherId)
    (result : Option Bool) (budget : SearchBudget) :
    let after := evaluateUnion evaluator.evaluate value items result budget
    after.2.remaining.states ≤ budget.remaining.states ∧
      (after.2.limit = none → after.1 =
        if some true ∈ items.map (evaluator.predicate · value) then some true
        else if none ∈ items.map (evaluator.predicate · value) then none
        else result) := by
  induction items generalizing result budget with
  | nil => exact ⟨le_rfl, fun _ => rfl⟩
  | cons item items ih =>
    have hstates := evaluator.answers.states_le item value budget
    have hanswer := evaluator.answers.evaluate_eq item value budget
    unfold evaluateUnion
    rcases heval : evaluator.evaluate item value budget with ⟨matched, after⟩
    rw [heval] at hstates hanswer
    dsimp only at hstates hanswer ⊢
    by_cases htrue : matched = some true
    · rw [if_pos htrue]
      refine ⟨hstates, fun hlimit => ?_⟩
      rw [hanswer hlimit] at htrue
      rw [if_pos (by rw [List.map_cons, htrue]; exact List.mem_cons_self)]
    · rw [if_neg htrue]
      by_cases hlimit : after.limit.isSome = true
      · rw [if_pos hlimit]
        refine ⟨hstates, fun hnone => ?_⟩
        rw [show after.limit = none from hnone] at hlimit
        cases hlimit
      · rw [if_neg hlimit]
        obtain ⟨hle, hresult⟩ := ih (if matched = none then none else result) after
        refine ⟨Nat.le_trans hle hstates, fun hnone => ?_⟩
        obtain rfl := hanswer (by simpa using hlimit)
        rw [hresult hnone, List.map_cons]
        simp only [List.mem_cons, Ne.symm htrue, false_or]
        by_cases hunknown : evaluator.predicate item value = none
        · simp [hunknown]
        · simp [hunknown, Ne.symm hunknown]

/-- The evaluation answers a predicate that is closed under unions and patterns. -/
theorem evaluateCallKey_answers {predicate : MatcherId → Str → Option Bool}
    (hclosed : Closed matcherOf query primitive predicate) (depth : Nat) :
    Answers (evaluateCallKey matcherOf query.evaluate primitive depth) predicate := by
  induction depth with
  | zero => exact ⟨fun _ _ _ => le_rfl, fun _ _ _ hlimit => nomatch hlimit⟩
  | succ depth ih =>
    let below : HoleEvaluator := ⟨_, _, ih⟩
    have hspec : ∀ matcher value budget,
        let after := evaluateCallKey matcherOf query.evaluate primitive (depth + 1)
          matcher value budget
        after.2.remaining.states ≤ budget.remaining.states ∧
          (after.2.limit = none → after.1 = predicate matcher value) := by
      intro matcher value budget
      unfold evaluateCallKey
      rcases hcharge : budget.charge 1 0 with ⟨charged, spent⟩
      have hspent := budget.charge_states_le 1 0
      rw [hcharge] at hspent
      dsimp only at hspent ⊢
      cases charged with
      | false =>
        rcases budget.charge_spec 1 0 with ⟨htrue, -⟩ | ⟨-, hsome⟩
        · rw [hcharge] at htrue
          cases htrue
        · rw [hcharge] at hsome
          exact ⟨hspent, fun hnone => absurd hnone hsome⟩
      | true =>
        by_cases hdepth : spent.remaining.depth ≤ spent.depth
        · rw [if_neg (by decide), if_pos hdepth]
          exact ⟨hspent, by rintro ⟨⟩⟩
        · rw [if_neg (by decide), if_neg hdepth]
          cases hmatcher : matcherOf matcher with
          | union items =>
            rw [hclosed.union matcher items value hmatcher]
            obtain ⟨hle, hanswer⟩ := evaluateUnion_spec below value items (some false)
              { spent with depth := spent.depth + 1 }
            exact ⟨Nat.le_trans hle hspent, hanswer⟩
          | pattern parts =>
            rw [hclosed.pattern matcher parts value hmatcher]
            obtain ⟨result, after, hsearch, hdecides, hle⟩ :=
              searchExcept_decides below parts value none { spent with depth := spent.depth + 1 }
            dsimp only
            rw [show search (evaluateCallKey matcherOf query.evaluate primitive depth)
              parts value _ = _ from hsearch]
            exact ⟨Nat.le_trans hle hspent, patternAnswer_eq hdecides⟩
          | query =>
            rw [hclosed.query matcher value hmatcher]
            exact ⟨Nat.le_trans (query.answers.states_le matcher value _) hspent,
              query.answers.evaluate_eq matcher value _⟩
          | primitive =>
            rw [hclosed.primitive matcher value hmatcher]
            rcases SearchBudget.charge_spec { spent with depth := spent.depth + 1 }
              (byteLen value) 0 with ⟨htrue, -⟩ | ⟨hfalse, hsome⟩
            · refine ⟨Nat.le_trans (SearchBudget.charge_states_le _ _ _) hspent, fun _ => ?_⟩
              dsimp only
              rw [htrue, if_pos rfl]
            · exact ⟨Nat.le_trans (SearchBudget.charge_states_le _ _ _) hspent,
                fun hnone => absurd hnone hsome⟩
    exact ⟨fun matcher value budget => (hspec matcher value budget).1,
      fun matcher value budget => (hspec matcher value budget).2⟩

end Matchers

end ParadoxCode.Rules
