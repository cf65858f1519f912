import ParadoxCode.Format.Paths

/-!
# Pattern search

`pattern.rs` of the rules crate: a pattern of literal texts and holes against a value, within a
budget of work and states. Positions count characters where the source counts bytes; the source only
slices at character boundaries. A hole is evaluated with the same budget, by a union, by a pattern
again, or by the caller: what the caller answers and what a query does are parameters.
-/

namespace ParadoxCode.Rules

open ParadoxCode.Format

/-! ## The budget -/

inductive SearchLimit where
  | work
  | states
  | depth
  | cancelled
  deriving DecidableEq

structure SearchLimits where
  work : Nat
  states : Nat
  depth : Nat
  deriving DecidableEq

/-- `SearchBudget`. The answers of the checkpoint are given by the number of the call. -/
structure SearchBudget where
  remaining : SearchLimits
  depth : Nat
  checkpoint : Nat → Bool
  calls : Nat
  limit : Option SearchLimit

namespace SearchBudget

def new (limits : SearchLimits) (checkpoint : Nat → Bool) : SearchBudget :=
  ⟨limits, 0, checkpoint, 0, none⟩

/-- Why a charge is refused. -/
def refusal (budget : SearchBudget) (work states : Nat) : Option SearchLimit :=
  if budget.checkpoint budget.calls then some .cancelled
  else if budget.remaining.work < work then some .work
  else if budget.remaining.states < states then some .states
  else none

def charge (budget : SearchBudget) (work states : Nat) : Bool × SearchBudget :=
  if budget.limit.isSome then (false, budget)
  else
    match budget.refusal work states with
    | some limit => (false, { budget with calls := budget.calls + 1, limit := some limit })
    | none => (true, { budget with
        calls := budget.calls + 1
        remaining := { budget.remaining with
          work := budget.remaining.work - work
          states := budget.remaining.states - states } })

end SearchBudget

/-! ## Patterns -/

abbrev MatcherId := Nat

inductive PatternPart where
  | text (text : Str)
  | hole (matcher : MatcherId)
  deriving DecidableEq

/-- A hole with the place of its slice. -/
structure HoleSlice where
  matcher : MatcherId
  start : Nat
  stop : Nat
  deriving DecidableEq

/-- `&value[start..end]`. -/
def slice (value : Str) (start stop : Nat) : Str := (value.drop start).take (stop - start)

/-- How the matcher of a hole is evaluated: the answer, where `none` is unknown, and the budget
left. -/
abbrev Evaluate := MatcherId → Str → SearchBudget → Option Bool × SearchBudget

/-! ## The search -/

/-- A task. The route is the list of the holes so far, the last one first. -/
inductive Task where
  | atPart (part offset : Nat) (route : List HoleSlice) (unknown different : Bool)
  | inHole (part start stop : Nat) (route : List HoleSlice) (unknown different : Bool)
  deriving DecidableEq

structure SearchResult where
  matched : Option Bool
  holes : List HoleSlice
  deriving DecidableEq

/-- What the memo remembers of a task: part, offset, unknown and different. -/
abbrev Key := Nat × Nat × Bool × Bool

/-- The variables of the loop. -/
structure Search where
  pending : List Task
  seen : List Key
  unresolved : Bool

inductive Outcome where
  | next (search : Search)
  | stop
  | found (holes : List HoleSlice)

section Loop

variable (evaluate : Evaluate) (parts : List PatternPart) (value : Str)
  (excluded : Option (List HoleSlice))

/-- `ordinals[part]`. -/
def ordinal (part : Nat) : Nat :=
  (parts.take part).countP fun part => match part with
    | .hole _ => true
    | .text _ => false

/-- The hole is not the one of the excluded holes. -/
def differs (part : Nat) (hole : HoleSlice) : Bool :=
  match excluded with
  | none => false
  | some holes => holes[ordinal parts part]? != some hole

/-- The text stands in the value at an offset, up to ASCII case. -/
def textAt (text : Str) (offset : Nat) : Bool :=
  eqIgnoreAsciiCase ((value.drop offset).take text.length) text

def visitPart (part offset : Nat) (route : List HoleSlice) (unknown different : Bool)
    (search : Search) (budget : SearchBudget) : Outcome × SearchBudget :=
  match parts[part]? with
  | none =>
    if offset = value.length then
      if excluded.isSome && !different then (.next search, budget)
      else if unknown then (.next { search with unresolved := true }, budget)
      else (.found route.reverse, budget)
    else (.next search, budget)
  | some (.text text) =>
    let (charged, budget) := budget.charge (byteLen text) 0
    if charged then
      if textAt value text offset then
        let task := .atPart (part + 1) (offset + text.length) route unknown different
        (.next { search with pending := task :: search.pending }, budget)
      else (.next search, budget)
    else (.stop, budget)
  | some (.hole _) =>
    if offset < value.length then
      let stop := if part + 1 = parts.length then value.length else offset + 1
      let task := .inHole part offset stop route unknown different
      (.next { search with pending := task :: search.pending }, budget)
    else (.next search, budget)

def visitHole (matcher : MatcherId) (part start stop : Nat) (route : List HoleSlice)
    (unknown different : Bool) (search : Search) (budget : SearchBudget) : Outcome × SearchBudget :=
  let pending :=
    if stop < value.length then .inHole part start (stop + 1) route unknown different ::
      search.pending
    else search.pending
  let (matched, budget) := evaluate matcher (slice value start stop) budget
  if matched = some false then (.next { search with pending }, budget)
  else
    let (charged, budget) := budget.charge 1 1
    if charged then
      let task := .atPart (part + 1) stop (⟨matcher, start, stop⟩ :: route)
        (unknown || matched.isNone) (different || differs parts excluded part
        ⟨matcher, start, stop⟩)
      (.next { search with pending := task :: pending }, budget)
    else (.stop, budget)

/-- One task. A hole task without a hole is `unreachable!`. -/
def visit (task : Task) (search : Search) (budget : SearchBudget) :
    Option (Outcome × SearchBudget) :=
  match task with
  | .atPart part offset route unknown different =>
    if (part, offset, unknown, different) ∈ search.seen then some (.next search, budget)
    else some (visitPart parts value excluded part offset route unknown different
      { search with seen := (part, offset, unknown, different) :: search.seen } budget)
  | .inHole part start stop route unknown different =>
    match parts[part]? with
    | some (.hole matcher) =>
      some (visitHole evaluate parts value excluded matcher part start stop route unknown different
        search budget)
    | _ => none

/-- The result behind the loop. -/
def finish (search : Search) (budget : SearchBudget) : SearchResult × SearchBudget :=
  (⟨if search.unresolved || budget.limit.isSome then none else some false, []⟩, budget)

def searchLoop : Nat → Search → SearchBudget → Option (SearchResult × SearchBudget)
  | 0, _, _ => none
  | fuel + 1, search, budget =>
    match search.pending with
    | [] => some (finish search budget)
    | task :: pending =>
      let (charged, budget) := budget.charge 1 1
      if charged then
        match visit evaluate parts value excluded task { search with pending } budget with
        | none => none
        | some (.next search, budget) => searchLoop fuel search budget
        | some (.stop, budget) => some (finish search budget)
        | some (.found holes, budget) => some (⟨some true, holes⟩, budget)
      else some (finish { search with pending } budget)

/-- `search_except`. Every task is charged for a state, so that the states bound the tasks. -/
def searchExcept (budget : SearchBudget) : Option (SearchResult × SearchBudget) :=
  let (charged, budget) := budget.charge parts.length parts.length
  if charged then
    searchLoop evaluate parts value excluded (budget.remaining.states + 1)
      ⟨[.atPart 0 0 [] false false], [], false⟩ budget
  else some (⟨none, []⟩, budget)

end Loop

/-- `search_with_context`. -/
def search (evaluate : Evaluate) (parts : List PatternPart) (value : Str)
    (budget : SearchBudget) : Option (SearchResult × SearchBudget) :=
  searchExcept evaluate parts value none budget

/-- `unique_search_with_context`. -/
def uniqueSearch (evaluate : Evaluate) (parts : List PatternPart) (value : Str)
    (budget : SearchBudget) : Option (SearchResult × SearchBudget) := do
  let (first, budget) ← search evaluate parts value budget
  if first.matched ≠ some true then return (first, budget)
  let (other, budget) ← searchExcept evaluate parts value (some first.holes) budget
  return (if other.matched = some false then first else ⟨none, []⟩, budget)

/-! ## Matchers -/

inductive Matcher where
  | union (items : List MatcherId)
  | pattern (parts : List PatternPart)
  | query
  | primitive
  deriving DecidableEq

/-- The alternatives of a union. -/
def evaluateUnion (evaluate : Evaluate) (value : Str) :
    List MatcherId → Option Bool → SearchBudget → Option Bool × SearchBudget
  | [], result, budget => (result, budget)
  | item :: items, result, budget =>
    let (matched, budget) := evaluate item value budget
    if matched = some true then (some true, budget)
    else
      let result := if matched = none then none else result
      if budget.limit.isSome then (result, budget) else
        evaluateUnion evaluate value items result budget

/-- `evaluate_call_key` without `no_args`. The fuel bounds the depth, which the budget bounds
too. -/
def evaluateCallKey (matcherOf : MatcherId → Matcher) (query : Evaluate)
    (primitive : MatcherId → Str → Option Bool) : Nat → Evaluate
  | 0, _, _, budget => (none, { budget with limit := some .depth })
  | fuel + 1, matcher, value, budget =>
    let (charged, budget) := budget.charge 1 0
    if !charged then (none, budget)
    else if budget.remaining.depth ≤ budget.depth then (none, { budget with limit := some .depth })
    else
      let deeper := { budget with depth := budget.depth + 1 }
      let (result, budget) :=
        match matcherOf matcher with
        | .union items =>
          evaluateUnion (evaluateCallKey matcherOf query primitive fuel) value items
            (some false) deeper
        | .pattern parts =>
          match search (evaluateCallKey matcherOf query primitive fuel) parts value deeper with
          | some (result, budget) => (result.matched, budget)
          | none => (none, deeper)
        | .query => query matcher value deeper
        | .primitive =>
          let (charged, budget) := deeper.charge (byteLen value) 0
          (if charged then primitive matcher value else none, budget)
      (result, { budget with depth := budget.depth - 1 })

end ParadoxCode.Rules
