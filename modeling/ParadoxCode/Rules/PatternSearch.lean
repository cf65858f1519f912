import ParadoxCode.Rules.Pattern

/-!
# The search decides its pattern

An assignment gives every hole a slice of the value, so that the texts and the slices follow each
other (`Spells`). The loop walks over the states that assignments without a rejected hole lead to;
it remembers them without their route, since what lies behind a state does not depend on it.

1. `Path` is a beginning of such an assignment, with the state that it leads to.
2. `Inv` is the invariant of the loop: tasks come from paths, and what follows a state that was seen
is seen or pending.
3. A search that ends within its budget has seen the state of every path.
-/

namespace ParadoxCode.Rules

open ParadoxCode.Format

/-! ## Assignments -/

section Assignments

variable (value : Str)

/-- The holes take slices that spell the value from an offset on, together with the texts. -/
def Spells : List PatternPart → Nat → List HoleSlice → Prop
  | [], offset, holes => offset = value.length ∧ holes = []
  | .text text :: parts, offset, holes =>
    textAt value text offset = true ∧ Spells parts (offset + text.length) holes
  | .hole matcher :: parts, offset, holes =>
    ∃ stop rest, offset < stop ∧ stop ≤ value.length ∧ holes = ⟨matcher, offset, stop⟩ :: rest ∧
      Spells parts stop rest

variable (predicate : MatcherId → Str → Option Bool)

/-- The answer for a hole. -/
def answer (hole : HoleSlice) : Option Bool := predicate hole.matcher
    (slice value hole.start hole.stop)

def Accepted (holes : List HoleSlice) : Prop := ∀ hole ∈ holes,
    answer value predicate hole = some true

def Rejected (holes : List HoleSlice) : Prop := ∃ hole ∈ holes,
    answer value predicate hole = some false

/-- Neither accepted nor rejected. -/
def Undecided (holes : List HoleSlice) : Prop :=
  ¬ Rejected value predicate holes ∧ ∃ hole ∈ holes, answer value predicate hole = none

end Assignments

/-- An evaluation gives the answers of a three-valued predicate, unless the budget ends, and takes
states from the budget only. -/
structure Answers (evaluate : Evaluate) (predicate : MatcherId → Str → Option Bool) : Prop where
  states_le : ∀ matcher text budget,
    (evaluate matcher text budget).2.remaining.states ≤ budget.remaining.states
  evaluate_eq : ∀ matcher text budget, (evaluate matcher text budget).2.limit = none →
    (evaluate matcher text budget).1 = predicate matcher text

/-- A three-valued predicate with its evaluation. -/
structure HoleEvaluator where
  predicate : MatcherId → Str → Option Bool
  evaluate : Evaluate
  answers : Answers evaluate predicate

/-! ## Charges -/

variable {budget budget' : SearchBudget} {work states : Nat}

theorem SearchBudget.charge_spec (budget : SearchBudget) (work states : Nat) :
    ((budget.charge work states).1 = true ∧ budget.limit = none ∧
        (budget.charge work states).2.limit = none ∧ states ≤ budget.remaining.states ∧
        (budget.charge work states).2.remaining.states = budget.remaining.states - states) ∨
      ((budget.charge work states).1 = false ∧ (budget.charge work states).2.limit ≠ none) := by
  unfold SearchBudget.charge
  cases hlimit : budget.limit with
  | some limit => exact Or.inr ⟨rfl, by simp [hlimit]⟩
  | none =>
    cases hrefusal : budget.refusal work states with
    | some limit => exact Or.inr ⟨by simp, by simp⟩
    | none =>
      have hstates : states ≤ budget.remaining.states := by
        unfold SearchBudget.refusal at hrefusal
        split_ifs at hrefusal with hcancelled hwork hfew
        exact Nat.le_of_not_lt hfew
      exact Or.inl ⟨by simp, rfl, by simp, hstates, by simp⟩

theorem SearchBudget.charge_states_le (budget : SearchBudget) (work states : Nat) :
    (budget.charge work states).2.remaining.states ≤ budget.remaining.states := by
  unfold SearchBudget.charge
  split
  · exact le_rfl
  · split
    · exact le_rfl
    · exact Nat.sub_le _ _

/-! ## Paths -/

variable {evaluator : HoleEvaluator} {parts : List PatternPart} {value : Str}
  {excluded : Option (List HoleSlice)}

/-- The state behind a part: part, offset, unknown and different. -/
inductive Edge (predicate : MatcherId → Str → Option Bool) (parts : List PatternPart) (value : Str)
    (excluded : Option (List HoleSlice)) : Key → Option HoleSlice → Key → Prop where
  | text {part offset : Nat} {unknown different : Bool} {text : Str} :
    parts[part]? = some (.text text) → textAt value text offset = true →
      Edge predicate parts value excluded (part, offset, unknown, different) none
        (part + 1, offset + text.length, unknown, different)
  | hole {part offset stop : Nat} {unknown different : Bool} {matcher : MatcherId} :
    parts[part]? = some (.hole matcher) → offset < stop → stop ≤ value.length →
      (part + 1 = parts.length → stop = value.length) →
      answer value predicate ⟨matcher, offset, stop⟩ ≠ some false →
      Edge predicate parts value excluded (part, offset, unknown, different)
        (some ⟨matcher, offset, stop⟩)
        (part + 1, stop, unknown || (answer value predicate ⟨matcher, offset, stop⟩).isNone,
          different || differs parts excluded part ⟨matcher, offset, stop⟩)

/-- The beginning of an assignment without a rejected hole, and the state behind it. The last hole
of the route comes first. -/
inductive Path (predicate : MatcherId → Str → Option Bool) (parts : List PatternPart) (value : Str)
    (excluded : Option (List HoleSlice)) : List HoleSlice → Key → Prop where
  | start : Path predicate parts value excluded [] (0, 0, false, false)
  | step {route : List HoleSlice} {key key' : Key} {hole : Option HoleSlice} :
    Path predicate parts value excluded route key →
      Edge predicate parts value excluded key hole key' →
      Path predicate parts value excluded (hole.toList ++ route) key'

/-- The state counts as an end: with excluded holes, only one that differs from them. -/
def Counts (excluded : Option (List HoleSlice)) (different : Bool) : Prop :=
  excluded = none ∨ different = true

/-! ## The invariant -/

section Invariant

variable (evaluator) (parts) (value) (excluded)

/-- The states that a task will lead to. -/
def Task.Covers : Task → Key → Prop
  | .atPart part offset _ unknown different, key => key = (part, offset, unknown, different)
  | .inHole part start stop _ unknown different, key => ∃ matcher stop', stop ≤ stop' ∧
      Edge evaluator.predicate parts value excluded (part, start, unknown, different)
        (some ⟨matcher, start, stop'⟩) key

/-- The task comes from a path. -/
def Task.Valid : Task → Prop
  | .atPart part offset route unknown different =>
    Path evaluator.predicate parts value excluded route (part, offset, unknown, different)
  | .inHole part start stop route unknown different =>
    Path evaluator.predicate parts value excluded route (part, start, unknown, different) ∧
      (∃ matcher, parts[part]? = some (.hole matcher)) ∧ start < stop ∧ stop ≤ value.length ∧
      (part + 1 = parts.length → stop = value.length)

/-- Seen or pending. -/
def Covered (search : Search) (key : Key) : Prop :=
  key ∈ search.seen ∨ ∃ task ∈ search.pending, task.Covers evaluator parts value excluded key

structure Inv (search : Search) : Prop where
  valid : ∀ task ∈ search.pending, task.Valid evaluator parts value excluded
  root : Covered evaluator parts value excluded search (0, 0, false, false)
  closed : ∀ key ∈ search.seen, ∀ hole key', Edge evaluator.predicate parts value excluded
    key hole key' → Covered evaluator parts value excluded search key'
  ended : ∀ unknown different, (parts.length, value.length, unknown, different) ∈ search.seen →
    Counts excluded different → unknown = true ∧ search.unresolved = true
  unresolved : search.unresolved = true → ∃ route different, Counts excluded different ∧
    Path evaluator.predicate parts value excluded route (parts.length, value.length,
      true, different)

/-- What one task does. -/
structure Visited (budget budget' : SearchBudget) (outcome : Outcome) : Prop where
  states : budget'.remaining.states ≤ budget.remaining.states
  next : ∀ search', outcome = .next search' → budget'.limit = none →
    Inv evaluator parts value excluded search'
  stop : outcome = .stop → budget'.limit ≠ none
  found : ∀ holes, outcome = .found holes → ∃ different, Counts excluded different ∧
    Path evaluator.predicate parts value excluded holes.reverse
      (parts.length, value.length, false, different)

end Invariant

/-! ## One task -/

section Tasks

/-- Edges of a state are about the part of the state. -/
theorem Edge.part {predicate : MatcherId → Str → Option Bool} {part offset : Nat}
    {unknown different : Bool} {hole : Option HoleSlice} {key : Key}
    (h : Edge predicate parts value excluded (part, offset, unknown, different) hole key) :
    (∃ text, parts[part]? = some (.text text) ∧ textAt value text offset = true ∧ hole = none ∧
        key = (part + 1, offset + text.length, unknown, different)) ∨
      ∃ matcher stop, parts[part]? = some (.hole matcher) ∧ offset < stop ∧ stop ≤ value.length ∧
        (part + 1 = parts.length → stop = value.length) ∧ hole = some ⟨matcher, offset, stop⟩ ∧
        answer value predicate ⟨matcher, offset, stop⟩ ≠ some false ∧
        key = (part + 1, stop, unknown || (answer value predicate ⟨matcher, offset, stop⟩).isNone,
          different || differs parts excluded part ⟨matcher, offset, stop⟩) := by
  cases h with
  | text hpart hat => exact Or.inl ⟨_, hpart, hat, rfl, rfl⟩
  | hole hpart hlt hle hlast hanswer =>
    exact Or.inr ⟨_, _, hpart, hlt, hle, hlast, rfl, hanswer, rfl⟩

variable {route : List HoleSlice}

theorem Path.part_le {predicate : MatcherId → Str → Option Bool} {key : Key}
    (h : Path predicate parts value excluded route key) : key.1 ≤ parts.length := by
  induction h with
  | start => exact Nat.zero_le _
  | step _ hedge _ =>
    cases hedge with
    | text hpart _ => exact (List.getElem?_eq_some_iff.mp hpart).1
    | hole hpart _ _ _ _ => exact (List.getElem?_eq_some_iff.mp hpart).1

variable {search search' : Search}

/-- The invariant after a task, from what the task changed. -/
theorem Inv.advance (h : Inv evaluator parts value excluded search)
    (hvalid : ∀ task ∈ search'.pending,
      task ∈ search.pending ∨ task.Valid evaluator parts value excluded)
    (hcovered : ∀ key, Covered evaluator parts value excluded search key →
      Covered evaluator parts value excluded search' key)
    (hseen : ∀ key ∈ search'.seen, key ∈ search.seen ∨
      (∀ hole key', Edge evaluator.predicate parts value excluded key hole key' →
        Covered evaluator parts value excluded search' key') ∧
      ∀ unknown different, key = (parts.length, value.length, unknown, different) →
        Counts excluded different → unknown = true ∧ search'.unresolved = true)
    (hkeeps : search.unresolved = true → search'.unresolved = true)
    (hnew : search'.unresolved = true → search.unresolved = true ∨
      ∃ route different, Counts excluded different ∧
        Path evaluator.predicate parts value excluded route
        (parts.length, value.length, true, different)) :
    Inv evaluator parts value excluded search' := by
  refine ⟨fun task htask => ?_, hcovered _ h.root, fun key hkey hole key' hedge => ?_,
    fun unknown different hkey hcounts => ?_, fun hunresolved => ?_⟩
  · exact (hvalid task htask).elim (h.valid task) id
  · rcases hseen key hkey with hold | ⟨hedges, -⟩
    · exact hcovered _ (h.closed key hold hole key' hedge)
    · exact hedges hole key' hedge
  · rcases hseen _ hkey with hold | ⟨-, hend⟩
    · obtain ⟨hunknown, hunresolved⟩ := h.ended unknown different hold hcounts
      exact ⟨hunknown, hkeeps hunresolved⟩
    · exact hend unknown different rfl hcounts
  · exact (hnew hunresolved).elim h.unresolved id

variable {seen : List Key} {unresolved : Bool}

theorem visitPart_visited {part offset : Nat} {unknown different : Bool} {pending : List Task}
    (h : Inv evaluator parts value excluded
      ⟨.atPart part offset route unknown different :: pending, seen, unresolved⟩) :
    let result := visitPart parts value excluded part offset route unknown different
      ⟨pending, (part, offset, unknown, different) :: seen, unresolved⟩ budget
    Visited evaluator parts value excluded budget result.2 result.1 := by
  have hpath : Path evaluator.predicate parts value excluded route
    (part, offset, unknown, different) :=
    h.valid _ List.mem_cons_self
  -- What was covered by the task is seen now.
  have hcovered : ∀ (pending' : List Task) (unresolved' : Bool), pending ⊆ pending' → ∀ key,
      Covered evaluator parts value excluded
        ⟨.atPart part offset route unknown different :: pending, seen, unresolved⟩ key →
      Covered evaluator parts value excluded
        ⟨pending', (part, offset, unknown, different) :: seen, unresolved'⟩ key := by
    rintro pending' unresolved' hsub key (hkey | ⟨task, htask, hcovers⟩)
    · exact Or.inl (List.mem_cons_of_mem _ hkey)
    · rcases List.mem_cons.mp htask with rfl | htask
      · rw [show key = _ from hcovers]
        exact Or.inl List.mem_cons_self
      · exact Or.inr ⟨task, hsub htask, hcovers⟩
  -- A task without new tasks.
  have hdone : ∀ unresolved' : Bool, (unresolved = true → unresolved' = true) →
      (unresolved' = true → unresolved = true ∨ ∃ route different, Counts excluded different ∧
        Path evaluator.predicate parts value excluded route
          (parts.length, value.length, true, different)) →
      (∀ hole key, ¬ Edge evaluator.predicate parts value excluded
        (part, offset, unknown, different) hole key) →
      ((part, offset) = (parts.length, value.length) → Counts excluded different →
        unknown = true ∧ unresolved' = true) →
      Inv evaluator parts value excluded
        ⟨pending, (part, offset, unknown, different) :: seen, unresolved'⟩ := by
    intro unresolved' hkeeps hnew hnone hend
    refine h.advance (fun task htask => Or.inl (List.mem_cons_of_mem _ htask))
      (hcovered _ _ (List.Subset.refl _)) (fun key hkey => ?_) hkeeps hnew
    rcases List.mem_cons.mp hkey with rfl | hkey
    · refine Or.inr ⟨fun hole key' hedge => absurd hedge (hnone hole key'), ?_⟩
      intro unknown' different' heq hcounts
      cases heq
      exact hend rfl hcounts
    · exact Or.inl hkey
  unfold visitPart
  dsimp only
  cases hpart : parts[part]? with
  | none =>
    have hnone : ∀ hole key, ¬ Edge evaluator.predicate parts value excluded
        (part, offset, unknown, different) hole key := by
      intro hole key hedge
      rcases hedge.part with ⟨text, htext, -⟩ | ⟨matcher, stop, hhole, -⟩
      · rw [hpart] at htext
        cases htext
      · rw [hpart] at hhole
        cases hhole
    have hlength : part = parts.length :=
      Nat.le_antisymm hpath.part_le (List.getElem?_eq_none_iff.mp hpart)
    dsimp only
    split_ifs with hoffset hexcluded hunknown
    · refine ⟨le_rfl, fun search' heq _ => ?_, (by rintro ⟨⟩), (by rintro _ ⟨⟩)⟩
      cases heq
      refine hdone unresolved id Or.inl hnone fun _ hcounts => ?_
      rcases hcounts with hcounts | hcounts
      · simp [hcounts] at hexcluded
      · simp [hcounts] at hexcluded
    · refine ⟨le_rfl, fun search' heq _ => ?_, (by rintro ⟨⟩), (by rintro _ ⟨⟩)⟩
      cases heq
      have hcounts : Counts excluded different := by
        cases hex : excluded with
        | none => exact Or.inl rfl
        | some holes => simpa [hex, Counts] using hexcluded
      subst hlength hoffset hunknown
      exact hdone true (fun _ => rfl) (fun _ => Or.inr ⟨route, different, hcounts, hpath⟩) hnone
        fun _ _ => ⟨rfl, rfl⟩
    · refine ⟨le_rfl, (by rintro _ ⟨⟩), (by rintro ⟨⟩), fun holes heq => ?_⟩
      cases heq
      have hcounts : Counts excluded different := by
        cases hex : excluded with
        | none => exact Or.inl rfl
        | some holes => simpa [hex, Counts] using hexcluded
      subst hlength hoffset
      obtain rfl : unknown = false := by simpa using hunknown
      rw [List.reverse_reverse]
      exact ⟨different, hcounts, hpath⟩
    · refine ⟨le_rfl, fun search' heq _ => ?_, (by rintro ⟨⟩), (by rintro _ ⟨⟩)⟩
      cases heq
      exact hdone unresolved id Or.inl hnone fun heq => absurd (Prod.mk.inj heq).2 hoffset
  | some found =>
    have hlt : part < parts.length := (List.getElem?_eq_some_iff.mp hpart).1
    have hne : (part, offset) ≠ (parts.length, value.length) := by
      intro heq
      exact absurd (Prod.mk.inj heq).1 (Nat.ne_of_lt hlt)
    cases found with
    | text text =>
      dsimp only
      rcases budget.charge_spec (byteLen text) 0 with
        ⟨htrue, -, hnone, -, hstates⟩ | ⟨hfalse, hsome⟩
      · rw [htrue, if_pos rfl]
        split_ifs with hat
        · refine ⟨by simp [hstates], fun search' heq _ => ?_, (by rintro ⟨⟩), (by rintro _ ⟨⟩)⟩
          cases heq
          refine h.advance (fun task htask => ?_)
            (hcovered _ _ fun task htask => List.mem_cons_of_mem _ htask)
              (fun key hkey => ?_) id Or.inl
          · rcases List.mem_cons.mp htask with rfl | htask
            · exact Or.inr (hpath.step (Edge.text hpart hat))
            · exact Or.inl (List.mem_cons_of_mem _ htask)
          · rcases List.mem_cons.mp hkey with rfl | hkey
            · refine Or.inr ⟨fun hole key' hedge => ?_, ?_⟩
              · rcases hedge.part with ⟨text', htext, -, -, hkey'⟩ | ⟨matcher, stop, hhole, -⟩
                · rw [hpart] at htext
                  cases htext
                  exact Or.inr ⟨_, List.mem_cons_self, hkey'⟩
                · rw [hpart] at hhole
                  cases hhole
              · intro unknown' different' heq
                cases heq
                exact absurd rfl hne
            · exact Or.inl hkey
        · refine ⟨by simp [hstates], fun search' heq _ => ?_, (by rintro ⟨⟩), (by rintro _ ⟨⟩)⟩
          cases heq
          refine hdone unresolved id Or.inl (fun hole key hedge => ?_) fun heq => absurd heq hne
          rcases hedge.part with ⟨text', htext, hat', -⟩ | ⟨matcher, stop, hhole, -⟩
          · rw [hpart] at htext
            cases htext
            exact hat hat'
          · rw [hpart] at hhole
            cases hhole
      · rw [hfalse, if_neg (by decide)]
        refine ⟨?_, (by rintro _ ⟨⟩), fun _ => hsome, (by rintro _ ⟨⟩)⟩
        exact SearchBudget.charge_states_le _ _ _
    | hole matcher =>
      dsimp only
      by_cases hoffset : offset < value.length
      · rw [if_pos hoffset]
        refine ⟨le_rfl, fun search' heq _ => ?_, (by rintro ⟨⟩), (by rintro _ ⟨⟩)⟩
        cases heq
        refine h.advance (fun task htask => ?_)
          (hcovered _ _ fun task htask => List.mem_cons_of_mem _ htask)
            (fun key hkey => ?_) id Or.inl
        · rcases List.mem_cons.mp htask with rfl | htask
          · refine Or.inr ⟨hpath, ⟨matcher, hpart⟩, ?_, ?_, ?_⟩
            · split_ifs <;> omega
            · split_ifs <;> omega
            · exact fun hlast => if_pos hlast
          · exact Or.inl (List.mem_cons_of_mem _ htask)
        · rcases List.mem_cons.mp hkey with rfl | hkey
          · refine Or.inr ⟨fun hole key' hedge => ?_, ?_⟩
            · rcases hedge.part with ⟨text', htext, -⟩ | ⟨matcher', stop, -, hstop, -,
                hlast, rfl, -, -⟩
              · rw [hpart] at htext
                cases htext
              · refine Or.inr ⟨_, List.mem_cons_self, matcher', stop, ?_, hedge⟩
                split_ifs with hend
                · exact Nat.le_of_eq (hlast hend).symm
                · exact hstop
            · intro unknown' different' heq
              cases heq
              exact absurd rfl hne
          · exact Or.inl hkey
      · rw [if_neg hoffset]
        refine ⟨le_rfl, fun search' heq _ => ?_, (by rintro ⟨⟩), (by rintro _ ⟨⟩)⟩
        cases heq
        refine hdone unresolved id Or.inl (fun hole key hedge => ?_) fun heq => absurd heq hne
        rcases hedge.part with ⟨text', htext, -⟩ | ⟨matcher', stop, -, hstop, hle, -⟩
        · rw [hpart] at htext
          cases htext
        · omega

theorem visitHole_visited {matcher : MatcherId} {part start stop : Nat}
    {unknown different : Bool} {pending : List Task} (h : Inv evaluator parts value excluded
      ⟨.inHole part start stop route unknown different :: pending, seen, unresolved⟩)
    (hpart : parts[part]? = some (.hole matcher)) :
    let result := visitHole evaluator.evaluate parts value excluded matcher part start
      stop route unknown
      different ⟨pending, seen, unresolved⟩ budget
    Visited evaluator parts value excluded budget result.2 result.1 := by
  obtain ⟨hpath, -, hlt, hle, hlast⟩ := h.valid _ List.mem_cons_self
  -- The remaining ends of the slice.
  let later := if stop < value.length then
    Task.inHole part start (stop + 1) route unknown different :: pending else pending
  have hlater : ∀ task ∈ later, task ∈ pending ∨ task.Valid evaluator parts value excluded := by
    intro task htask
    unfold later at htask
    split_ifs at htask with hmore
    · rcases List.mem_cons.mp htask with rfl | htask
      · refine Or.inr ⟨hpath, ⟨matcher, hpart⟩, by omega, by omega, fun hend => ?_⟩
        have := hlast hend
        omega
      · exact Or.inl htask
    · exact Or.inl htask
  have hsub : pending ⊆ later := by
    intro task htask
    unfold later
    split_ifs
    · exact List.mem_cons_of_mem _ htask
    · exact htask
  -- What the task covers leads to this end or to a later one.
  have hcases : ∀ key, Task.Covers evaluator parts value excluded
      (.inHole part start stop route unknown different) key →
      (answer value evaluator.predicate ⟨matcher, start, stop⟩ ≠ some false ∧
        key = (part + 1, stop, unknown ||
          (answer value evaluator.predicate ⟨matcher, start, stop⟩).isNone,
          different || differs parts excluded part ⟨matcher, start, stop⟩)) ∨
      ∃ task ∈ later, task.Covers evaluator parts value excluded key := by
    rintro key ⟨matcher', stop', hstop, hedge⟩
    rcases hedge.part with ⟨text, htext, -⟩ | ⟨found, stop'', hfound, -, hle', -, heq, hanswer, rfl⟩
    · rw [hpart] at htext
      cases htext
    · rw [hpart] at hfound
      cases hfound
      cases heq
      rcases Nat.eq_or_lt_of_le hstop with rfl | hmore
      · exact Or.inl ⟨hanswer, rfl⟩
      · refine Or.inr ⟨.inHole part start (stop + 1) route unknown different, ?_,
          matcher, stop', hmore, hedge⟩
        unfold later
        rw [if_pos (by omega)]
        exact List.mem_cons_self
  -- The invariant with some tasks in front of the later ones.
  have hinv : ∀ front : List Task, (∀ task ∈ front, task.Valid evaluator parts value excluded) →
      (answer value evaluator.predicate ⟨matcher, start, stop⟩ ≠ some false →
        ∃ task ∈ front, task.Covers evaluator parts value excluded
          (part + 1, stop, unknown || (answer value evaluator.predicate
            ⟨matcher, start, stop⟩).isNone, different || differs parts excluded part
            ⟨matcher, start, stop⟩)) →
      Inv evaluator parts value excluded ⟨front ++ later, seen, unresolved⟩ := by
    intro front hfront hthis
    refine h.advance (fun task htask => ?_) (fun key hkey => ?_)
      (fun key hkey => Or.inl hkey) id Or.inl
    · rcases List.mem_append.mp htask with htask | htask
      · exact Or.inr (hfront task htask)
      · exact (hlater task htask).imp_left (List.mem_cons_of_mem _)
    · rcases hkey with hkey | ⟨task, htask, hcovers⟩
      · exact Or.inl hkey
      · rcases List.mem_cons.mp htask with rfl | htask
        · rcases hcases key hcovers with ⟨hanswer, rfl⟩ | ⟨task, htask, hcovers⟩
          · obtain ⟨task, htask, hcovers⟩ := hthis hanswer
            exact Or.inr ⟨task, List.mem_append_left _ htask, hcovers⟩
          · exact Or.inr ⟨task, List.mem_append_right _ htask, hcovers⟩
        · exact Or.inr ⟨task, List.mem_append_right _ (hsub htask), hcovers⟩
  have hstates := evaluator.answers.states_le matcher (slice value start stop) budget
  have hanswer : (evaluator.evaluate matcher (slice value start stop) budget).2.limit = none →
      (evaluator.evaluate matcher (slice value start stop) budget).1 =
        answer value evaluator.predicate ⟨matcher, start, stop⟩ :=
    evaluator.answers.evaluate_eq matcher (slice value start stop) budget
  unfold visitHole
  rcases hevaluated : evaluator.evaluate matcher (slice value start stop) budget with
    ⟨matched, after⟩
  rw [hevaluated] at hstates hanswer
  dsimp only at hstates hanswer ⊢
  by_cases hrejected : matched = some false
  · rw [if_pos hrejected]
    refine ⟨hstates, fun search' heq hnone => ?_, (by rintro ⟨⟩), (by rintro _ ⟨⟩)⟩
    cases heq
    refine hinv [] (fun task htask => absurd htask List.not_mem_nil) fun hne => ?_
    rw [← hanswer hnone] at hne
    exact absurd hrejected hne
  · rw [if_neg hrejected]
    rcases after.charge_spec 1 1 with ⟨htrue, hnone, -, -, hcharged⟩ | ⟨hfalse, hsome⟩
    · rw [htrue, if_pos rfl, hanswer hnone]
      rw [hanswer hnone] at hrejected
      refine ⟨by dsimp only; omega, fun search' heq _ => ?_, (by rintro ⟨⟩), (by rintro _ ⟨⟩)⟩
      cases heq
      refine hinv [_] (fun task htask => ?_) fun _ => ⟨_, List.mem_singleton_self _, rfl⟩
      rw [List.mem_singleton.mp htask]
      exact hpath.step (Edge.hole hpart hlt hle hlast hrejected)
    · rw [hfalse, if_neg (by decide)]
      refine ⟨?_, (by rintro _ ⟨⟩), fun _ => hsome, (by rintro _ ⟨⟩)⟩
      exact Nat.le_trans (SearchBudget.charge_states_le _ _ _) hstates

theorem visit_visited {task : Task} {pending : List Task}
    (h : Inv evaluator parts value excluded ⟨task :: pending, seen, unresolved⟩) :
    ∃ outcome budget', visit evaluator.evaluate parts value excluded task
        ⟨pending, seen, unresolved⟩ budget =
        some (outcome, budget') ∧
      Visited evaluator parts value excluded budget budget' outcome := by
  cases task with
  | atPart part offset route unknown different =>
    by_cases hseen : (part, offset, unknown, different) ∈ seen
    · refine ⟨_, _, if_pos hseen, le_rfl, fun search' heq _ => ?_, (by rintro ⟨⟩), (by rintro _ ⟨⟩)⟩
      cases heq
      refine h.advance (fun task htask => Or.inl (List.mem_cons_of_mem _ htask))
        (fun key hkey => ?_) (fun key hkey => Or.inl hkey) id Or.inl
      rcases hkey with hkey | ⟨task, htask, hcovers⟩
      · exact Or.inl hkey
      · rcases List.mem_cons.mp htask with rfl | htask
        · rw [show key = _ from hcovers]
          exact Or.inl hseen
        · exact Or.inr ⟨task, htask, hcovers⟩
    · exact ⟨_, _, if_neg hseen, visitPart_visited h⟩
  | inHole part start stop route unknown different =>
    obtain ⟨-, ⟨matcher, hpart⟩, -⟩ := h.valid _ List.mem_cons_self
    refine ⟨_, _, ?_, visitHole_visited h hpart⟩
    unfold visit
    dsimp only
    rw [hpart]

/-! ## The loop -/

section Loop

variable (evaluator) (parts) (value) (excluded)

/-- What a search says. -/
structure Decides (result : SearchResult) (budget : SearchBudget) : Prop where
  accepts : result.matched = some true → ∃ different, Counts excluded different ∧
    Path evaluator.predicate parts value excluded result.holes.reverse
      (parts.length, value.length, false, different)
  refuses : result.matched ≠ some true → budget.limit = none → ∀ route unknown different,
    Counts excluded different → Path evaluator.predicate parts value excluded route
      (parts.length, value.length, unknown, different) → unknown = true ∧ result.matched = none
  unknown : result.matched = none → budget.limit = none → ∃ route different,
    Counts excluded different ∧ Path evaluator.predicate parts value excluded route
      (parts.length, value.length, true, different)
  limited : result.matched = some false → budget.limit = none

end Loop

/-- A loop without tasks has seen every path. -/
theorem Inv.mem_seen {key : Key} (h : Inv evaluator parts value excluded ⟨[], seen, unresolved⟩)
    (hpath : Path evaluator.predicate parts value excluded route key) : key ∈ seen := by
  have hcovered : ∀ key, Covered evaluator parts value excluded ⟨[], seen, unresolved⟩ key →
      key ∈ seen := by
    rintro key (hkey | ⟨task, htask, -⟩)
    · exact hkey
    · cases htask
  induction hpath with
  | start => exact hcovered _ h.root
  | step _ hedge ih => exact hcovered _ (h.closed _ ih _ _ hedge)

theorem finish_limited (hlimit : budget.limit ≠ none) :
    Decides evaluator parts value excluded (finish search budget).1 (finish search budget).2 := by
  have hmatched : (finish search budget).1.matched = none := by
    have hsome : budget.limit.isSome = true := Option.isSome_iff_ne_none.mpr hlimit
    simp [finish, hsome]
  refine ⟨fun htrue => ?_, fun _ hnone => absurd hnone hlimit, fun _ hnone => absurd hnone hlimit,
    fun hfalse => ?_⟩
  · rw [hmatched] at htrue
    cases htrue
  · rw [hmatched] at hfalse
    cases hfalse

theorem finish_done
    (h : Inv evaluator parts value excluded ⟨[], seen, unresolved⟩) (hlimit : budget.limit = none) :
    Decides evaluator parts value excluded (finish ⟨[], seen, unresolved⟩ budget).1
      (finish ⟨[], seen, unresolved⟩ budget).2 := by
  have hmatched : (finish ⟨[], seen, unresolved⟩ budget).1.matched =
      if unresolved = true then none else some false := by
    simp [finish, hlimit]
  refine ⟨fun htrue => ?_, fun _ _ route unknown different hcounts hpath => ?_, fun hnone _ => ?_,
    fun _ => hlimit⟩
  · rw [hmatched] at htrue
    split_ifs at htrue
    cases htrue
  · obtain ⟨hunknown, hunresolved⟩ := h.ended unknown different (h.mem_seen hpath) hcounts
    exact ⟨hunknown, by rw [hmatched]; exact if_pos hunresolved⟩
  · rw [hmatched] at hnone
    split_ifs at hnone with hunresolved
    exact h.unresolved hunresolved

/-- The loop ends, since every task takes a state from the budget. -/
theorem searchLoop_decides (evaluator : HoleEvaluator) {fuel : Nat}
    (h : budget.limit = none → Inv evaluator parts value excluded search)
    (hfuel : budget.remaining.states < fuel) :
    ∃ result budget', searchLoop evaluator.evaluate parts value excluded fuel search budget =
        some (result, budget') ∧ Decides evaluator parts value excluded result budget' ∧
      budget'.remaining.states ≤ budget.remaining.states := by
  induction fuel generalizing search budget with
  | zero => exact absurd hfuel (Nat.not_lt_zero _)
  | succ fuel ih =>
    obtain ⟨pending, seen, unresolved⟩ := search
    unfold searchLoop
    cases pending with
    | nil =>
      refine ⟨_, _, rfl, ?_, le_rfl⟩
      by_cases hlimit : budget.limit = none
      · exact finish_done (h hlimit) hlimit
      · exact finish_limited hlimit
    | cons task pending =>
      dsimp only
      rcases budget.charge_spec 1 1 with ⟨htrue, hnone, hnone', hone, hstates⟩ | ⟨hfalse, hsome⟩
      · rw [htrue, if_pos rfl]
        obtain ⟨outcome, after, hvisit, hvisited⟩ := visit_visited (h hnone)
        rw [hvisit]
        cases outcome with
        | next search =>
          dsimp only
          have hspent := hvisited.states
          obtain ⟨result, budget', hresult, hdecides, hle⟩ :=
            ih (hvisited.next search rfl) (by omega)
          exact ⟨result, budget', hresult, hdecides, by omega⟩
        | stop =>
          have hspent := hvisited.states
          exact ⟨_, _, rfl, finish_limited (hvisited.stop rfl), Nat.le_trans hspent (by omega)⟩
        | found holes =>
          have hspent := hvisited.states
          refine ⟨_, _, rfl, ⟨fun _ => hvisited.found holes rfl, fun hne => absurd rfl hne, ?_, ?_⟩,
            by omega⟩
          · rintro ⟨⟩
          · rintro ⟨⟩
      · rw [hfalse, if_neg (by decide)]
        exact ⟨_, _, rfl, finish_limited hsome, SearchBudget.charge_states_le _ _ _⟩

theorem Inv.start : Inv evaluator parts value excluded
    ⟨[.atPart 0 0 [] false false], [], false⟩ := by
  refine ⟨fun task htask => ?_, Or.inr ⟨_, List.mem_singleton_self _, rfl⟩, ?_, ?_, ?_⟩
  · rw [List.mem_singleton.mp htask]
    exact Path.start
  · rintro _ ⟨⟩
  · rintro _ _ ⟨⟩
  · rintro ⟨⟩

theorem searchExcept_decides (evaluator : HoleEvaluator) (parts : List PatternPart) (value : Str)
    (excluded : Option (List HoleSlice)) (budget : SearchBudget) :
    ∃ result budget', searchExcept evaluator.evaluate parts value excluded budget =
        some (result, budget') ∧ Decides evaluator parts value excluded result budget' ∧
      budget'.remaining.states ≤ budget.remaining.states := by
  have hspent := budget.charge_states_le parts.length parts.length
  unfold searchExcept
  rcases budget.charge_spec parts.length parts.length with ⟨htrue, -⟩ | ⟨hfalse, hsome⟩
  · dsimp only
    rw [htrue, if_pos rfl]
    obtain ⟨result, budget', hresult, hdecides, hle⟩ :=
      searchLoop_decides evaluator (fun _ => Inv.start) (Nat.lt_succ_self _)
    exact ⟨result, budget', hresult, hdecides, Nat.le_trans hle hspent⟩
  · dsimp only
    rw [hfalse, if_neg (by decide)]
    refine ⟨_, _, rfl, ⟨?_, fun _ hnone => absurd hnone hsome,
      fun _ hnone => absurd hnone hsome, ?_⟩, hspent⟩
    · rintro ⟨⟩
    · rintro ⟨⟩

end Tasks

/-! ## Paths and assignments -/

theorem drop_eq_cons {part : Nat} {found : PatternPart} (h : parts[part]? = some found) :
    parts.drop part = found :: parts.drop (part + 1) := by
  obtain ⟨hlt, hget⟩ := List.getElem?_eq_some_iff.mp h
  rw [List.drop_eq_getElem_cons hlt, hget]

variable {predicate : MatcherId → Str → Option Bool}

variable {route : List HoleSlice}

/-- What completes the state of a path completes its route to an assignment. -/
theorem Path.spells {key : Key}
    (h : Path predicate parts value excluded route key) : ∀ holes : List HoleSlice,
      Spells value (parts.drop key.1) key.2.1 holes →
      Spells value parts 0 (route.reverse ++ holes) := by
  induction h with
  | start => exact fun holes hholes => hholes
  | step _ hedge ih =>
    intro holes hholes
    cases hedge with
    | text hpart hat =>
      refine ih holes ?_
      rw [drop_eq_cons hpart]
      exact ⟨hat, hholes⟩
    | hole hpart hlt hle _ _ =>
      rw [Option.toList_some, List.singleton_append, List.reverse_cons, List.append_assoc]
      refine ih _ ?_
      rw [drop_eq_cons hpart]
      exact ⟨_, _, hlt, hle, rfl, hholes⟩

theorem Path.not_rejected {key : Key} (h : Path predicate parts value excluded route key) :
    ∀ hole ∈ route, answer value predicate hole ≠ some false := by
  induction h with
  | start => simp
  | step _ hedge ih =>
    cases hedge with
    | text _ _ => exact ih
    | hole _ _ _ _ hanswer =>
      intro hole hhole
      rcases List.mem_cons.mp hhole with rfl | hhole
      · exact hanswer
      · exact ih hole hhole

/-- Unknown says that a hole of the route is undecided. -/
theorem Path.unknown_iff {key : Key} (h : Path predicate parts value excluded route key) :
    key.2.2.1 = true ↔ ∃ hole ∈ route, answer value predicate hole = none := by
  induction h with
  | start => simp
  | step _ hedge ih =>
    cases hedge with
    | text _ _ => exact ih
    | hole _ _ _ _ _ =>
      dsimp only at ih ⊢
      rw [Bool.or_eq_true, ih]
      simp [or_comm]

/-- An assignment without a rejected hole completes the route of a path. -/
theorem exists_path {suffix : List PatternPart} {part offset : Nat} {unknown different : Bool}
    {holes : List HoleSlice} (hsuffix : parts.drop part = suffix)
    (hpath : Path predicate parts value excluded route (part, offset, unknown, different))
    (hspells : Spells value suffix offset holes)
    (hanswer : ∀ hole ∈ holes, answer value predicate hole ≠ some false) :
    ∃ unknown' different', Path predicate parts value excluded (holes.reverse ++ route)
      (parts.length, value.length, unknown', different') := by
  induction suffix generalizing part offset unknown different route holes with
  | nil =>
    obtain ⟨rfl, rfl⟩ := hspells
    have hlength : part = parts.length :=
      Nat.le_antisymm hpath.part_le (List.drop_eq_nil_iff.mp hsuffix)
    subst hlength
    exact ⟨unknown, different, hpath⟩
  | cons found suffix ih =>
    have hpart : parts[part]? = some found := by
      rw [← List.head?_drop, hsuffix]
      rfl
    have hnext : parts.drop (part + 1) = suffix := by
      rw [drop_eq_cons hpart] at hsuffix
      exact (List.cons.inj hsuffix).2
    cases found with
    | text text =>
      obtain ⟨hat, hspells⟩ := hspells
      exact ih hnext (hpath.step (Edge.text hpart hat)) hspells hanswer
    | hole matcher =>
      obtain ⟨stop, rest, hlt, hle, rfl, hspells⟩ := hspells
      have hlast : part + 1 = parts.length → stop = value.length := by
        intro hend
        rw [hend, List.drop_length] at hnext
        rw [← hnext] at hspells
        exact hspells.1
      obtain ⟨unknown', different', hcomplete⟩ := ih hnext
        (hpath.step (Edge.hole hpart hlt hle hlast (hanswer _ List.mem_cons_self))) hspells
        fun hole hhole => hanswer hole (List.mem_cons_of_mem _ hhole)
      refine ⟨unknown', different', ?_⟩
      rw [List.reverse_cons, List.append_assoc]
      exact hcomplete

/-- Ends of paths are assignments without a rejected hole. -/
theorem Path.complete {unknown different : Bool}
    (h : Path predicate parts value excluded route
      (parts.length, value.length, unknown, different)) :
    Spells value parts 0 route.reverse := by
  have hspells := h.spells [] (by rw [List.drop_length]; exact ⟨rfl, rfl⟩)
  rwa [List.append_nil] at hspells

namespace Decides

variable {evaluator : HoleEvaluator} {result : SearchResult} {budget : SearchBudget}

theorem accepted (h : Decides evaluator parts value none result budget)
    (htrue : result.matched = some true) :
    Spells value parts 0 result.holes ∧ Accepted value evaluator.predicate result.holes := by
  obtain ⟨different, -, hpath⟩ := h.accepts htrue
  have hspells := hpath.complete
  rw [List.reverse_reverse] at hspells
  refine ⟨hspells, fun hole hhole => ?_⟩
  have hmem : hole ∈ result.holes.reverse := List.mem_reverse.mpr hhole
  rcases hanswer : answer value evaluator.predicate hole with _ | _ | _
  · have htrue := hpath.unknown_iff.mpr ⟨hole, hmem, hanswer⟩
    cases htrue
  · exact absurd hanswer (hpath.not_rejected hole hmem)
  · rfl

/-- An assignment without a rejected hole is undecided then, and so is the search. -/
theorem undecided_of_not_rejected (h : Decides evaluator parts value none result budget)
    (hmatched : result.matched ≠ some true) (hlimit : budget.limit = none) {holes : List HoleSlice}
    (hspells : Spells value parts 0 holes) (hnone : ¬ Rejected value evaluator.predicate holes) :
    (∃ hole ∈ holes, answer value evaluator.predicate hole = none) ∧ result.matched = none := by
  obtain ⟨unknown, different, hpath⟩ := exists_path (List.drop_zero (l := parts)) Path.start hspells
    fun hole hhole hfalse => hnone ⟨hole, hhole, hfalse⟩
  obtain ⟨hunknown, hresult⟩ := h.refuses hmatched hlimit _ _ _ (Or.inl rfl) hpath
  obtain ⟨hole, hhole, hanswer⟩ := hpath.unknown_iff.mp hunknown
  exact ⟨⟨hole, by simpa using hhole, hanswer⟩, hresult⟩

theorem rejected (h : Decides evaluator parts value none result budget)
    (hfalse : result.matched = some false) {holes : List HoleSlice}
    (hspells : Spells value parts 0 holes) : Rejected value evaluator.predicate holes := by
  by_contra hnone
  obtain ⟨-, hresult⟩ := h.undecided_of_not_rejected (by rw [hfalse]; decide)
    (h.limited hfalse) hspells hnone
  rw [hfalse] at hresult
  cases hresult

theorem not_accepted (h : Decides evaluator parts value none result budget)
    (hunknown : result.matched = none) (hlimit : budget.limit = none) {holes : List HoleSlice}
    (hspells : Spells value parts 0 holes) : ¬ Accepted value evaluator.predicate holes := by
  intro haccepted
  have hnone : ¬ Rejected value evaluator.predicate holes := by
    rintro ⟨hole, hhole, hfalse⟩
    rw [haccepted hole hhole] at hfalse
    cases hfalse
  obtain ⟨⟨hole, hhole, hanswer⟩, -⟩ := h.undecided_of_not_rejected
    (by rw [hunknown]; decide) hlimit hspells hnone
  rw [haccepted hole hhole] at hanswer
  cases hanswer

theorem exists_undecided (h : Decides evaluator parts value none result budget)
    (hunknown : result.matched = none) (hlimit : budget.limit = none) :
    ∃ holes, Spells value parts 0 holes ∧ Undecided value evaluator.predicate holes := by
  obtain ⟨route, different, -, hpath⟩ := h.unknown hunknown hlimit
  refine ⟨route.reverse, hpath.complete, ?_, ?_⟩
  · rintro ⟨hole, hhole, hfalse⟩
    exact hpath.not_rejected hole (List.mem_reverse.mp hhole) hfalse
  · obtain ⟨hole, hhole, hanswer⟩ := hpath.unknown_iff.mp rfl
    exact ⟨hole, List.mem_reverse.mpr hhole, hanswer⟩

end Decides

/-- Every search ends. It accepts with an accepted assignment, refuses where every assignment has a
rejected hole, and within its budget it leaves open where no assignment is accepted and one is
undecided. -/
theorem search_decides (evaluator : HoleEvaluator) (parts : List PatternPart) (value : Str)
    (budget : SearchBudget) :
    ∃ result budget', search evaluator.evaluate parts value budget = some (result, budget') ∧
      (result.matched = some true →
        Spells value parts 0 result.holes ∧ Accepted value evaluator.predicate result.holes) ∧
      (result.matched = some false → ∀ holes, Spells value parts 0 holes →
        Rejected value evaluator.predicate holes) ∧
      (result.matched = none → budget'.limit = none →
        (∀ holes, Spells value parts 0 holes → ¬ Accepted value evaluator.predicate holes) ∧
          ∃ holes, Spells value parts 0 holes ∧ Undecided value evaluator.predicate holes) := by
  obtain ⟨result, budget', hsearch, h, -⟩ := searchExcept_decides evaluator parts value none budget
  refine ⟨result, budget', hsearch, h.accepted, fun hfalse holes => h.rejected hfalse,
    fun hunknown hlimit => ⟨fun holes => h.not_accepted hunknown hlimit, ?_⟩⟩
  exact h.exists_undecided hunknown hlimit

/-! ## Empty slices -/

/-- The holes take slices that may be empty, and the texts stand as they are. -/
def SpellsLiterally (value : Str) : List PatternPart → Nat → List HoleSlice → Prop
  | [], offset, holes => offset = value.length ∧ holes = []
  | .text text :: parts, offset, holes =>
    (value.drop offset).take text.length = text ∧
      SpellsLiterally value parts (offset + text.length) holes
  | .hole matcher :: parts, offset, holes =>
    ∃ stop rest, offset ≤ stop ∧ stop ≤ value.length ∧ holes = ⟨matcher, offset, stop⟩ :: rest ∧
      SpellsLiterally value parts stop rest

/-- An evaluation that accepts everything and spends nothing. -/
def acceptAll : HoleEvaluator where
  predicate _ _ := some true
  evaluate _ _ budget := (some true, budget)
  answers := ⟨fun _ _ _ => le_rfl, fun _ _ _ _ => rfl⟩

/-- A hole takes at least one character: the search refuses a value that ends in front of the
hole. -/
theorem search_refuses_empty :
    ¬ ∀ (evaluator : HoleEvaluator) (parts : List PatternPart) (value : Str) (budget : SearchBudget)
        (result : SearchResult) (budget' : SearchBudget),
      search evaluator.evaluate parts value budget = some (result, budget') →
        result.matched = some false → ∀ holes, SpellsLiterally value parts 0 holes →
          Rejected value evaluator.predicate holes := by
  intro h
  have hsearch : search acceptAll.evaluate [.text ['v', ':'], .hole 0] ['v', ':']
      (.new ⟨100, 100, 100⟩ fun _ => false) = some (⟨some false, []⟩, _) := rfl
  obtain ⟨hole, hhole, hfalse⟩ := h acceptAll _ _ _ _ _ hsearch rfl [⟨0, 2, 2⟩]
    ⟨rfl, 2, [], le_rfl, le_rfl, rfl, rfl, rfl⟩
  cases hfalse

end ParadoxCode.Rules
