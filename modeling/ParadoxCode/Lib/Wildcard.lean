import Mathlib.Data.List.Forall2
import Mathlib.Tactic.Ring

/-!
# Wildcard matching

Patterns over any symbols: a star stands for any number of values, every other symbol for one value
that it accepts (`Matches`). `greedy` walks along pattern and values, tries a symbol on a value
before it looks for a star, and remembers the last star only. It accepts exactly the readings in
which a star that takes a value on its own takes it alone (`Takes`, `greedy_start`): the part of the
pattern between two stars can always be matched at its first place. Where no star takes a value on
its own, these are the readings of the language (`takes_iff_matches`).
-/

namespace Wildcard

section Language

variable {α β : Type} (star : α → Prop) (accepts : α → β → Prop)

/-- The language of a pattern. -/
def Matches : List α → List β → Prop
  | [], values => values = []
  | p :: ps, values => (star p ∧ ∃ skipped rest, values = skipped ++ rest ∧ Matches ps rest) ∨
      (¬ star p ∧ ∃ v rest, values = v :: rest ∧ accepts p v ∧ Matches ps rest)

/-- The readings in which a symbol takes a value that it accepts, also if it is a star. -/
def Takes : List α → List β → Prop
  | [], values => values = []
  | p :: ps, [] => star p ∧ Takes ps []
  | p :: ps, v :: values => (accepts p v ∧ Takes ps values) ∨
      (¬ accepts p v ∧ star p ∧ ∃ skipped rest, v :: values = skipped ++ rest ∧ Takes ps rest)

end Language

section Greedy

variable {α β : Type} (star : α → Bool) (literal : α → β → Bool)

/-- The next attempt behind the last star, where there is one: it starts one value later. -/
def retry (attempt : List α → List β → Option (List α × List β) → Option Bool) :
    Option (List α × List β) → Option Bool
  | some (again, _ :: later) => attempt again later (some (again, later))
  | _ => some false

/-- The matcher. `back` holds the pattern behind the last star and the values from where the current
attempt started. -/
def greedy : Nat → List α → List β → Option (List α × List β) → Option Bool
  | 0, _, _, _ => none
  | _ + 1, ps, [], _ => some (ps.all star)
  | fuel + 1, [], _ :: _, back => retry (greedy fuel) back
  | fuel + 1, p :: ps, v :: vs, back =>
    if literal p v then greedy fuel ps vs back
    else if star p then greedy fuel ps (v :: vs) (some (ps, v :: vs))
    else retry (greedy fuel) back

end Greedy

variable {α β : Type} {star : α → Prop} {accepts : α → β → Prop} {p : α} {v : β} {ps mid : List α}
  {vs front : List β}

/-! ## The language -/

theorem matches_star (h : star p) : Matches star accepts (p :: ps) vs ↔
    ∃ skipped rest, vs = skipped ++ rest ∧ Matches star accepts ps rest := by
  rw [Matches]
  exact ⟨fun hmatch => hmatch.elim And.right fun hno => absurd h hno.1,
    fun hmatch => Or.inl ⟨h, hmatch⟩⟩

theorem matches_one (h : ¬ star p) : Matches star accepts (p :: ps) vs ↔
    ∃ v rest, vs = v :: rest ∧ accepts p v ∧ Matches star accepts ps rest := by
  rw [Matches]
  exact ⟨fun hmatch => hmatch.elim (fun hno => absurd hno.1 h) And.right,
    fun hmatch => Or.inr ⟨h, hmatch⟩⟩

theorem matches_one_cons (h : ¬ star p) : Matches star accepts (p :: ps) (v :: vs) ↔
    accepts p v ∧ Matches star accepts ps vs := by
  rw [matches_one h]
  constructor
  · rintro ⟨_, _, heq, haccepts, hrest⟩
    cases heq
    exact ⟨haccepts, hrest⟩
  · rintro ⟨haccepts, hrest⟩
    exact ⟨v, vs, rfl, haccepts, hrest⟩

/-- Symbols that accept more match more. -/
theorem Matches.mono {accepts' : α → β → Prop} (h : ∀ p v, accepts p v → accepts' p v) :
    ∀ {vs : List β}, Matches star accepts ps vs → Matches star accepts' ps vs := by
  induction ps with
  | nil => exact fun hmatch => hmatch
  | cons p ps ih =>
    rintro vs (⟨hp, skipped, rest, heq, hrest⟩ | ⟨hp, v, rest, heq, haccepts, hrest⟩)
    · exact Or.inl ⟨hp, skipped, rest, heq, ih hrest⟩
    · exact Or.inr ⟨hp, v, rest, heq, h p v haccepts, ih hrest⟩

/-- One pattern behind another. -/
theorem Matches.append {qs : List α} {ws : List β} (hrest : Matches star accepts qs ws) :
    ∀ {vs : List β}, Matches star accepts ps vs → Matches star accepts (ps ++ qs) (vs ++ ws) := by
  induction ps with
  | nil =>
    rintro vs rfl
    exact hrest
  | cons p ps ih =>
    rintro vs (⟨hp, skipped, rest, rfl, hmatch⟩ | ⟨hp, v, rest, rfl, haccepts, hmatch⟩)
    · exact Or.inl ⟨hp, skipped, rest ++ ws, List.append_assoc _ _ _, ih hmatch⟩
    · exact Or.inr ⟨hp, v, rest ++ ws, rfl, haccepts, ih hmatch⟩

/-! ## Readings -/

theorem takes_accepts (h : accepts p v) :
    Takes star accepts (p :: ps) (v :: vs) ↔ Takes star accepts ps vs := by
  rw [Takes]
  exact ⟨fun htakes => htakes.elim And.right fun hno => absurd h hno.1,
    fun htakes => Or.inl ⟨h, htakes⟩⟩

theorem takes_star (h : ¬ accepts p v) (hp : star p) : Takes star accepts (p :: ps) (v :: vs) ↔
    ∃ skipped rest, v :: vs = skipped ++ rest ∧ Takes star accepts ps rest := by
  rw [Takes]
  exact ⟨fun htakes => htakes.elim (fun hno => absurd hno.1 h) fun htakes => htakes.2.2,
    fun htakes => Or.inr ⟨h, hp, htakes⟩⟩

theorem not_takes (h : ¬ accepts p v) (hp : ¬ star p) :
    ¬ Takes star accepts (p :: ps) (v :: vs) := by
  rw [Takes]
  exact fun htakes => htakes.elim (fun hno => h hno.1) fun hno => hp hno.2.1

/-- No values are left for stars only. -/
theorem takes_empty : Takes star accepts ps [] ↔ ∀ p ∈ ps, star p := by
  induction ps with
  | nil => exact ⟨fun _ _ hno => (List.not_mem_nil hno).elim, fun _ => rfl⟩
  | cons p ps ih => rw [List.forall_mem_cons, ← ih, Takes]

/-- The first symbol takes a front of the values. -/
theorem Takes.below (h : Takes star accepts (p :: ps) vs) :
    ∃ skipped rest, vs = skipped ++ rest ∧ Takes star accepts ps rest := by
  cases vs with
  | nil => exact ⟨[], [], rfl, h.2⟩
  | cons v vs =>
    rcases h with ⟨-, h⟩ | ⟨-, -, h⟩
    · exact ⟨[v], vs, rfl, h⟩
    · exact h

/-- Symbols that have taken one value each leave the rest of the pattern some of the values behind
them, from any later start. -/
theorem Takes.behind (hmid : List.Forall₂ accepts mid front) : ∀ {rest : List β},
    rest <:+ front ++ vs → Takes star accepts (mid ++ ps) rest →
      ∃ skipped more, vs = skipped ++ more ∧ Takes star accepts ps more := by
  induction hmid with
  | nil =>
    rintro rest ⟨skipped, hskipped⟩ h
    exact ⟨skipped, rest, hskipped.symm, h⟩
  | @cons p v mid front haccepts _ ih =>
    intro rest hrest h
    rcases List.suffix_cons_iff.mp hrest with rfl | hrest
    · exact ih List.suffix_rfl ((takes_accepts haccepts).mp h)
    · obtain ⟨skipped, more, rfl, hmore⟩ := h.below
      exact ih ((List.suffix_append skipped more).trans hrest) hmore

/-- Where no star accepts a value, the readings are those of the language. -/
theorem takes_iff_matches {accepts' : α → β → Prop}
    (h : ∀ p v, accepts p v ↔ ¬ star p ∧ accepts' p v) :
    ∀ {vs : List β}, Takes star accepts ps vs ↔ Matches star accepts' ps vs := by
  induction ps with
  | nil => exact Iff.rfl
  | cons p ps ih =>
    intro vs
    by_cases hp : star p
    · rw [matches_star hp]
      cases vs with
      | nil =>
        constructor
        · exact fun htakes => ⟨[], [], rfl, ih.mp htakes.2⟩
        · rintro ⟨skipped, rest, hnil, hrest⟩
          rw [(List.append_eq_nil_iff.mp hnil.symm).2] at hrest
          exact ⟨hp, ih.mpr hrest⟩
      | cons v vs =>
        rw [takes_star (fun haccepts => ((h p v).mp haccepts).1 hp) hp]
        simp only [ih]
    · cases vs with
      | nil =>
        refine iff_of_false (fun htakes => hp htakes.1) ?_
        rw [matches_one hp]
        rintro ⟨_, _, hnil, -⟩
        cases hnil
      | cons v vs =>
        rw [matches_one_cons hp]
        by_cases haccepts : accepts p v
        · rw [takes_accepts haccepts, ih, and_iff_right ((h p v).mp haccepts).2]
        · refine iff_of_false (not_takes haccepts hp) fun hmatch => ?_
          exact haccepts ((h p v).mpr ⟨hp, hmatch.1⟩)

/-- Every reading is one of the language. -/
theorem Takes.matches : ∀ {vs : List β}, Takes star accepts ps vs → Matches star accepts ps vs := by
  induction ps with
  | nil => exact fun h => h
  | cons p ps ih =>
    intro vs h
    by_cases hp : star p
    · obtain ⟨skipped, rest, heq, hrest⟩ := h.below
      exact (matches_star hp).mpr ⟨skipped, rest, heq, ih hrest⟩
    · cases vs with
      | nil => exact absurd h.1 hp
      | cons v vs =>
        by_cases haccepts : accepts p v
        · exact (matches_one_cons hp).mpr ⟨haccepts, ih ((takes_accepts haccepts).mp h)⟩
        · exact absurd h (not_takes haccepts hp)

/-! ## What is left to try -/

variable {fuel : Nat} {back : Option (List α × List β)}

/-- The values are taken, or they are from a later start behind the last star. -/
def Open (star : α → Prop) (accepts : α → β → Prop) (ps : List α) (vs : List β)
    (back : Option (List α × List β)) : Prop :=
  Takes star accepts ps vs ∨ ∃ again values, back = some (again, values) ∧
    ∃ v skipped rest, values = v :: skipped ++ rest ∧ Takes star accepts again rest

/-- The next attempt. -/
theorem open_retry {again : List α} (v : β) {later : List β} :
    Open star accepts again later (some (again, later)) ↔
      ∃ skipped rest, v :: later = v :: skipped ++ rest ∧ Takes star accepts again rest := by
  constructor
  · rintro (h | ⟨_, _, heq, w, skipped, rest, hvalues, h⟩)
    · exact ⟨[], later, rfl, h⟩
    · cases heq
      exact ⟨w :: skipped, rest, by rw [hvalues]; rfl, h⟩
  · rintro ⟨skipped, rest, hlater, h⟩
    rw [List.cons_append, List.cons.injEq] at hlater
    obtain ⟨-, rfl⟩ := hlater
    cases skipped with
    | nil => exact Or.inl h
    | cons w skipped => exact Or.inr ⟨again, _, rfl, w, skipped, rest, rfl, h⟩

theorem open_none : Open star accepts ps vs none ↔ Takes star accepts ps vs :=
  ⟨fun h => h.resolve_right (by rintro ⟨_, _, hno, -⟩; cases hno), Or.inl⟩

variable {starB : α → Bool} {literal : α → β → Bool}

/-! ## The matcher -/

/-- Between the last star and the current place stands a part of the pattern that has taken one
value for each symbol. -/
def Behind (accepts : α → β → Prop) (ps : List α) (vs : List β)
    (back : Option (List α × List β)) : Prop :=
  ∀ again values, back = some (again, values) → ∃ mid front, again = mid ++ ps ∧
    values = front ++ vs ∧ List.Forall₂ accepts mid front

/-- What bounds the rounds that are left: the pattern behind the last star, the attempts behind it,
and the values of the attempt. -/
def measure (bound : Nat) (ps : List α) (vs : List β) : Option (List α × List β) → Nat
  | none => (ps.length + 1) * bound * bound + vs.length
  | some (again, values) => again.length * bound * bound + values.length * bound + vs.length

theorem Behind.again (again : List α) (later : List β) :
    Behind accepts again later (some (again, later)) := by
  rintro _ _ heq
  cases heq
  exact ⟨[], [], rfl, rfl, .nil⟩

theorem Behind.advance (h : Behind accepts (p :: ps) (v :: vs) back) (hp : accepts p v) :
    Behind accepts ps vs back := by
  intro again values heq
  obtain ⟨mid, front, rfl, rfl, hmid⟩ := h again values heq
  exact ⟨mid ++ [p], front ++ [v], by simp, by simp, List.rel_append hmid (.cons hp .nil)⟩

/-- A reading from a later start behind the last star ends in a reading of what follows the current
place. -/
theorem Behind.later (h : Behind accepts ps vs back) (hopen : Open star accepts ps vs back) :
    ∃ skipped rest, vs = skipped ++ rest ∧ Takes star accepts ps rest := by
  rcases hopen with htakes | ⟨again, values, heq, v, skipped, rest, hvalues, htakes⟩
  · exact ⟨[], vs, rfl, htakes⟩
  · obtain ⟨mid, front, rfl, hfront, hmid⟩ := h again values heq
    refine htakes.behind hmid ?_
    rw [← hfront, hvalues]
    exact List.suffix_append _ _

/-- The values behind the last star end in those behind the current place. -/
theorem Behind.length_le (h : Behind accepts ps vs back) {again : List α} {values : List β}
    (hback : back = some (again, values)) :
    ps.length ≤ again.length ∧ vs.length ≤ values.length := by
  obtain ⟨mid, front, rfl, rfl, -⟩ := h again values hback
  rw [List.length_append, List.length_append]
  omega

theorem measure_advance (bound : Nat) (p : α) (v : β) (ps : List α) (vs : List β)
    (back : Option (List α × List β)) :
    measure bound ps vs back < measure bound (p :: ps) (v :: vs) back := by
  cases back with
  | none =>
    have : (ps.length + 1) * bound * bound ≤ (ps.length + 1 + 1) * bound * bound := by gcongr; omega
    simp only [measure, List.length_cons]
    omega
  | some last =>
    simp only [measure, List.length_cons]
    omega

theorem measure_star {bound : Nat} (hvs : (v :: vs).length < bound)
    (hbehind : Behind accepts (p :: ps) (v :: vs) back) :
    measure bound ps (v :: vs) (some (ps, v :: vs)) < measure bound (p :: ps) (v :: vs) back := by
  have hattempts : (v :: vs).length * bound < bound * bound :=
    Nat.mul_lt_mul_of_pos_right hvs (by omega)
  cases back with
  | none =>
    have : (ps.length + 1) * bound * bound ≤ ((p :: ps).length + 1) * bound * bound := by
      rw [List.length_cons]
      gcongr
      omega
    simp only [measure, Nat.add_mul, Nat.one_mul] at *
    omega
  | some last =>
    have hle := hbehind.length_le rfl
    have : (ps.length + 1) * bound * bound ≤ last.1.length * bound * bound := by
      gcongr
      exact hle.1
    simp only [measure, Nat.add_mul, Nat.one_mul] at *
    omega

theorem measure_retry (ps : List α) (vs : List β) {bound : Nat} (again : List α) (w : β)
    {later : List β} (hlater : later.length < bound) :
    measure bound again later (some (again, later)) < measure bound ps vs
      (some (again, w :: later)) := by
  simp only [measure, List.length_cons, Nat.add_mul, Nat.one_mul]
  omega

/-- The matcher decides whether the values are taken. -/
theorem greedy_spec (hstar : ∀ p, starB p = true ↔ star p)
    (hliteral : ∀ p v, literal p v = true ↔ accepts p v)
    (hbehind : Behind accepts ps vs back) {bound : Nat}
    (hvs : vs.length < bound) (hvalues : ∀ again values, back = some (again, values) →
      values.length < bound)
    (hfuel : measure bound ps vs back < fuel) :
    ∃ result, greedy starB literal fuel ps vs back = some result ∧
      (result = true ↔ Open star accepts ps vs back) := by
  induction fuel generalizing ps vs back with
  | zero => exact absurd hfuel (Nat.not_lt_zero _)
  | succ fuel ih =>
    cases vs with
    | nil =>
      refine ⟨ps.all starB, by cases ps <;> rfl, ?_⟩
      rw [List.all_eq_true]
      constructor
      · exact fun hall => Or.inl (takes_empty.mpr fun p hp => (hstar p).mp (hall p hp))
      · intro hopen
        obtain ⟨skipped, rest, hnil, htakes⟩ := hbehind.later hopen
        rw [(List.append_eq_nil_iff.mp hnil.symm).2] at htakes
        exact fun p hp => (hstar p).mpr (takes_empty.mp htakes p hp)
    | cons v vs =>
      -- no reading from the current place: the result is that of the next attempt
      have hretry (hno : ¬ Takes star accepts ps (v :: vs)) :
          ∃ result, retry (greedy starB literal fuel) back = some result ∧
            (result = true ↔ Open star accepts ps (v :: vs) back) := by
        cases hback : back with
        | none => exact ⟨false, rfl, iff_of_false Bool.false_ne_true (by rwa [open_none])⟩
        | some last =>
          obtain ⟨again, values⟩ := last
          have hle := (hbehind.length_le hback).2
          cases values with
          | nil => exact absurd hle (Nat.not_succ_le_zero _)
          | cons w later =>
            have hlater : later.length < bound := Nat.lt_of_succ_lt (hvalues _ _ hback)
            rw [hback] at hfuel
            have hmeasure := measure_retry ps (v :: vs) again w hlater
            obtain ⟨result, hresult, hiff⟩ := ih (Behind.again again later) hlater
              (by rintro _ _ heq; cases heq; exact hlater) (by omega)
            refine ⟨result, hresult, hiff.trans ((open_retry w).trans ?_)⟩
            constructor
            · rintro ⟨skipped, rest, hvalues, htakes⟩
              exact Or.inr ⟨again, _, rfl, w, skipped, rest, hvalues, htakes⟩
            · rintro (htakes | ⟨_, _, heq, u, skipped, rest, hvalues, htakes⟩)
              · exact absurd htakes hno
              · cases heq
                rw [List.cons_append, List.cons.injEq] at hvalues
                exact ⟨skipped, rest, by rw [hvalues.2]; rfl, htakes⟩
      cases ps with
      | nil => exact hretry (List.cons_ne_nil _ _)
      | cons p ps =>
        have hp := hliteral p v
        rw [greedy]
        split_ifs with haccepts hstarB
        · have haccepts := hp.mp haccepts
          have hmeasure := measure_advance bound p v ps vs back
          obtain ⟨result, hresult, hiff⟩ := ih (hbehind.advance haccepts)
            (Nat.lt_of_succ_lt hvs) hvalues (by omega)
          refine ⟨result, hresult, hiff.trans ?_⟩
          unfold Open
          rw [takes_accepts haccepts]
        · have hno : ¬ accepts p v := fun h => haccepts (hp.mpr h)
          have hp := (hstar p).mp hstarB
          have hmeasure := measure_star hvs hbehind
          obtain ⟨result, hresult, hiff⟩ := ih (Behind.again ps (v :: vs)) hvs
            (by rintro _ _ heq; cases heq; exact hvs) (by omega)
          refine ⟨result, hresult, hiff.trans ?_⟩
          -- what the new star takes covers every later start behind the old one
          have hstarOpen : Open star accepts ps (v :: vs) (some (ps, v :: vs)) ↔
              Takes star accepts (p :: ps) (v :: vs) := by
            rw [takes_star hno hp]
            constructor
            · rintro (h | ⟨_, _, heq, w, skipped, rest, hvalues, h⟩)
              · exact ⟨[], _, rfl, h⟩
              · cases heq
                exact ⟨w :: skipped, rest, hvalues, h⟩
            · rintro ⟨skipped, rest, hvalues, h⟩
              cases skipped with
              | nil =>
                rw [List.nil_append] at hvalues
                exact Or.inl (hvalues ▸ h)
              | cons w skipped => exact Or.inr ⟨ps, _, rfl, w, skipped, rest, hvalues, h⟩
          rw [hstarOpen]
          refine ⟨Or.inl, fun hopen => ?_⟩
          obtain ⟨skipped, rest, hvalues, h⟩ := hbehind.later hopen
          obtain ⟨skipped', rest', rfl, hrest⟩ := h.below
          rw [takes_star hno hp, hvalues]
          exact ⟨skipped ++ skipped', rest', (List.append_assoc _ _ _).symm, hrest⟩
        · exact hretry (not_takes (fun h => haccepts (hp.mpr h)) fun h => hstarB ((hstar p).mpr h))

/-- Enough fuel for a pattern and its values. -/
def rounds (ps : List α) (vs : List β) : Nat :=
  (ps.length + 1) * (vs.length + 1) * (vs.length + 1) + vs.length + 1

/-- From the start the matcher decides whether the values are taken. -/
theorem greedy_start (hstar : ∀ p, starB p = true ↔ star p)
    (hliteral : ∀ p v, literal p v = true ↔ accepts p v) :
    ∃ result, greedy starB literal (rounds ps vs) ps vs none = some result ∧
      (result = true ↔ Takes star accepts ps vs) := by
  have hspec : ∃ result, greedy starB literal (rounds ps vs) ps vs none = some result ∧
      (result = true ↔ Open star accepts ps vs none) :=
    greedy_spec hstar hliteral (by rintro _ _ ⟨⟩) (Nat.lt_succ_self vs.length) (by rintro _ _ ⟨⟩)
      (Nat.lt_succ_self _)
  obtain ⟨result, hresult, hiff⟩ := hspec
  exact ⟨result, hresult, hiff.trans open_none⟩

end Wildcard
