import Mathlib.Data.List.Dedup
import ParadoxCode.Rules.SchemaLower

/-!
# Schema field queries

`query.rs` of the rules crate: the enumeration of the fields of a schema that pass the filters of a
query (`query_source_fields`), and the selection of the fields of one key by normal dispatch
(`query_selected_fields_with`). The evaluation of a matcher, with its budget, is a parameter.

1. Where an exact declaration has the requested shape, only the exact declarations of the key are
   selected from (`selected_of_exact`).
2. Otherwise the first pattern of the shape that takes the key is (`selected_of_patterns_iff`).
3. An enumerated exact declaration is selected by its own key (`enumerated_selected`).
-/

namespace ParadoxCode.Rules.FieldQueries

open Format

/-! ## Queries -/

inductive Shape where
  | scalar
  | block
  deriving DecidableEq

inductive QueryProjection where
  | keys
  | values
  deriving DecidableEq

inductive QuerySelector where
  | literal (key : Symbol)
  | sibling (name : Symbol)
  deriving DecidableEq

inductive QueryValueKind where
  | int
  | float
  | bool
  deriving DecidableEq

/-- A query. All filters must hold; of the value kinds any. -/
structure FieldQuery where
  schema : SchemaId
  projection : QueryProjection
  selector : Option QuerySelector
  scopeAccepts : Option Symbol
  shape : Option Shape
  valueKindAny : List QueryValueKind
  capability : Option Symbol
  callArgsNone : Bool
  deriving DecidableEq

/-- The evidence for a sibling selector. -/
inductive SiblingValue where
  | scalar (text : Str)
  | missing
  | duplicate
  | invalid
  | deferred
  deriving DecidableEq

inductive QueryState where
  | resolved
  | missing
  | duplicate
  | invalid
  | deferred
  deriving DecidableEq

structure QueryResolution where
  state : QueryState
  fields : List FieldId
  deriving DecidableEq

/-- The resolution that selects the field. -/
def QueryResolution.Accepts (resolution : QueryResolution) (id : FieldId) : Prop :=
  resolution.state = .resolved ∧ id ∈ resolution.fields

/-- `QueryResolution::state`. -/
def QueryResolution.only (state : QueryState) : QueryResolution := ⟨state, []⟩

/-! ## Shapes and kinds -/

/-- The alternatives of a union in `matcher_shape`. -/
def foldShapes (shapeOf : MatcherId → Option Shape) : List MatcherId → Option Shape → Option Shape
  | [], shape => shape.or (some .scalar)
  | alternative :: alternatives, shape =>
    match shapeOf alternative, shape with
    | none, _ => none
    | some candidate, none => foldShapes shapeOf alternatives (some candidate)
    | some candidate, some existing =>
      if existing = candidate then foldShapes shapeOf alternatives (some existing) else none

/-- `matcher_shape`. A union is interned behind its alternatives, so its id is enough fuel. -/
def matcherShape (matchers : List Matcher) : Nat → MatcherId → Option Shape
  | 0, _ => none
  | fuel + 1, id =>
    match matchers[id]? with
    | some (.union alternatives) => foldShapes (matcherShape matchers fuel) alternatives none
    | _ => some .scalar

/-- `matcher_has_query_kind`, with the same fuel. -/
def matcherHasQueryKind (matchers : List Matcher) (kinds : List QueryValueKind) : Nat →
    MatcherId → Bool
  | 0, _ => false
  | fuel + 1, id =>
    match matchers[id]? with
    | some .int => kinds.contains .int
    | some .float => kinds.contains .float
    | some .bool => kinds.contains .bool
    | some (.union branches) => branches.any (matcherHasQueryKind matchers kinds fuel)
    | _ => false

namespace RulesIr

variable {Rest : Type} (ir : RulesIr Rest)

/-- `schema`. The source panics at an id of another set. -/
def schema (id : SchemaId) : Schema := ir.schemas.getD id ⟨∅, []⟩

/-- `field`. The source panics at an id of another set. -/
def field (id : FieldId) : Option (Field Rest) := (ir.fields[id]?).map Prod.fst

def shape (id : FieldId) : Option Shape := do
  match (← ir.field id).value with
  | .scalar matcher => matcherShape ir.matchers (matcher + 1) matcher
  | .block _ | .selfBlock => some .block

/-- The matcher of the field's key. -/
def key (id : FieldId) : MatcherId := ((ir.field id).map (·.key)).getD 0

/-- `fields`: all fields of a schema. -/
def allFields (id : SchemaId) : List FieldId :=
  (((ir.schema id).exact.toList.flatMap (·.2) ++ (ir.schema id).patterns).mergeSort).dedup

/-- The field has the shape of the query. -/
def ofShape (query : FieldQuery) (id : FieldId) : Bool :=
  query.shape.all fun shape => ir.shape id == some shape

/-- `query_field_passes`. -/
def queryFieldPasses (query : FieldQuery) (id : FieldId) : Bool :=
  match ir.field id with
  | none => false
  | some source =>
    !(query.callArgsNone && ir.shape id != some .scalar) &&
    ir.ofShape query id &&
    (query.projection != .values || (match source.value with | .scalar _ => true | _ => false)) &&
    (match query.scopeAccepts, source.scope with
      | some actual, some scope =>
        scope.scopesIn.isEmpty || scope.scopesIn.any (ir.scopes.compatible ir.strings actual ·)
      | _, _ => true) &&
    query.capability.all (source.capabilities.contains ·) &&
    (query.valueKindAny.isEmpty || (match source.value with
      | .scalar matcher => matcherHasQueryKind ir.matchers query.valueKindAny (matcher + 1) matcher
      | _ => false))

/-- `query_source_fields`. -/
def querySourceFields (query : FieldQuery) : List FieldId :=
  (ir.allFields query.schema).filter (ir.queryFieldPasses query)

/-- The declarations of an exact key. -/
def exactDeclarations (schema : SchemaId) (key : Str) : Option (List FieldId) := do
  let symbol ← ir.strings.lookupFolded key
  (ir.schema schema).exact[symbol]?

/-- The text under which an exact field is declared. -/
def ownKey (id : FieldId) : Option Str := do
  match ir.matchers[(← ir.field id).key]? with
  | some (.literal text) => some (ir.strings.resolve text)
  | _ => none

/-! ## Selection -/

section

/-- How a key matcher is evaluated on a text, asking for an empty argument list or not: the answer,
where `none` is unknown, and the budget left. -/
abbrev Matches (σ : Type) := MatcherId → Str → Bool → σ → Option Bool × σ

variable {σ : Type} («matches» : Matches σ) (query : FieldQuery) (key : Str)

/-- The proof of an empty argument list, if the query asks for it. -/
def callAnswer (id : FieldId) (budget : σ) : Option Bool × σ :=
  if query.callArgsNone then «matches» (ir.key id) key true budget else (some true, budget)

/-- What the overloads come to: the accepted ones, unless one of them is unknown. -/
def resolution (accepted : List FieldId) (deferred : Bool) : QueryResolution :=
  if deferred then .only .deferred
  else if accepted ≠ [] then ⟨.resolved, accepted⟩
  else .only .invalid

/-- The loop over the overloads that pass the filters. -/
def acceptOverloads : List FieldId → List FieldId → Bool → σ → QueryResolution × σ
  | [], accepted, deferred, budget => (resolution accepted deferred, budget)
  | id :: ids, accepted, deferred, budget =>
    let (answer, budget) := ir.callAnswer «matches» query key id budget
    match answer with
    | some true => acceptOverloads ids (accepted ++ [id]) deferred budget
    | none => acceptOverloads ids accepted true budget
    | some false => acceptOverloads ids accepted deferred budget

/-- The loop over the patterns of the shape. -/
def dispatchPatterns : List FieldId → σ → QueryResolution × σ
  | [], budget => (.only .invalid, budget)
  | id :: ids, budget =>
    let (matched, budget) := «matches» (ir.key id) key false budget
    match matched with
    | none => (.only .deferred, budget)
    | some false => dispatchPatterns ids budget
    | some true =>
      if ir.queryFieldPasses query id then
        let (answer, budget) := ir.callAnswer «matches» query key id budget
        match answer with
        | some true => (⟨.resolved, [id]⟩, budget)
        | some false => (.only .invalid, budget)
        | none => (.only .deferred, budget)
      else (.only .invalid, budget)

/-- `query_selected_fields_with`. -/
def querySelectedFields (budget : σ) : QueryResolution × σ :=
  match ir.exactDeclarations query.schema key with
  | some ids =>
    if ids.any (ir.ofShape query) then
      ir.acceptOverloads «matches» query key (ids.filter (ir.queryFieldPasses query))
        [] false budget
    else
      ir.dispatchPatterns «matches» query key
        ((ir.schema query.schema).patterns.filter (ir.ofShape query)) budget
  | none =>
    ir.dispatchPatterns «matches» query key ((ir.schema query.schema).patterns.filter
      (ir.ofShape query)) budget

/-- `query_fields_with`. -/
def queryFields (sibling : Str → SiblingValue) (budget : σ) : QueryResolution × σ :=
  match query.selector with
  | none => (⟨.resolved, ir.querySourceFields query⟩, budget)
  | some (.literal key) => ir.querySelectedFields «matches» query (ir.strings.resolve key) budget
  | some (.sibling name) =>
    match sibling (ir.strings.resolve name) with
    | .scalar value => ir.querySelectedFields «matches» query value budget
    | .missing => (.only .missing, budget)
    | .duplicate => (.only .duplicate, budget)
    | .invalid => (.only .invalid, budget)
    | .deferred => (.only .deferred, budget)

/-- The key a selector gives, with the evidence of the siblings. -/
def selectedKey (sibling : Str → SiblingValue) : Option Str :=
  match query.selector with
  | none => none
  | some (.literal key) => some (ir.strings.resolve key)
  | some (.sibling name) =>
    match sibling (ir.strings.resolve name) with
    | .scalar value => some value
    | _ => none

theorem queryFields_of_selectedKey {sibling : Str → SiblingValue}
    (h : ir.selectedKey query sibling = some key) (budget : σ) :
    ir.queryFields «matches» query sibling budget = ir.querySelectedFields «matches» query
      key budget := by
  unfold selectedKey at h
  unfold queryFields
  split at h
  · cases h
  · cases h
    rfl
  · split at h
    · rename_i name hname value hvalue
      cases h
      simp only [hvalue]
    · cases h

/-! ## Exact declarations -/

/-- The answers for the fields one after the other. -/
def callAnswers : List FieldId → σ → List (FieldId × Option Bool)
  | [], _ => []
  | id :: ids, budget =>
    let (answer, budget) := ir.callAnswer «matches» query key id budget
    (id, answer) :: callAnswers ids budget

/-- The fields that are answered in the affirmative. -/
def affirmed (answers : List (FieldId × Option Bool)) : List FieldId :=
  (answers.filter fun answer => answer.2 == some true).map Prod.fst

def undecided (answers : List (FieldId × Option Bool)) : Bool :=
  answers.any fun answer => answer.2.isNone

theorem callAnswers_of_no_calls (h : query.callArgsNone = false) (ids : List FieldId) (budget : σ) :
    ir.callAnswers «matches» query key ids budget = ids.map (·, some true) := by
  induction ids generalizing budget with
  | nil => rfl
  | cons id ids ih => simp [callAnswers, callAnswer, h, ih]

theorem affirmed_subset (ids : List FieldId) (budget : σ) :
    affirmed (ir.callAnswers «matches» query key ids budget) ⊆ ids := by
  induction ids generalizing budget with
  | nil => simp [callAnswers, affirmed]
  | cons id ids ih =>
    intro other hother
    simp only [callAnswers, affirmed, List.mem_map, List.mem_filter, List.mem_cons] at hother
    obtain ⟨answer, ⟨rfl | hanswer, htrue⟩, rfl⟩ := hother
    · exact List.mem_cons_self
    · apply List.mem_cons_of_mem
      apply ih
      exact List.mem_map.mpr ⟨answer, List.mem_filter.mpr ⟨hanswer, htrue⟩, rfl⟩

/-- The loop decides by the answers as a whole. -/
theorem acceptOverloads_eq (ids : List FieldId) : ∀ (accepted : List FieldId)
    (deferred : Bool) (budget : σ),
    (ir.acceptOverloads «matches» query key ids accepted deferred budget).1 =
      resolution (accepted ++ affirmed (ir.callAnswers «matches» query key ids budget))
        (deferred || undecided (ir.callAnswers «matches» query key ids budget)) := by
  induction ids with
  | nil =>
    intro accepted deferred budget
    simp [acceptOverloads, callAnswers, affirmed, undecided]
  | cons id ids ih =>
    intro accepted deferred budget
    rcases hanswer : ir.callAnswer «matches» query key id budget with ⟨answer, next⟩
    simp only [acceptOverloads, callAnswers, hanswer]
    rcases answer with _ | _ | _
    · simp [ih, affirmed, undecided]
    · simp [ih, affirmed, undecided]
    · simp [ih, affirmed, undecided]

variable {id : FieldId}

theorem resolution_accepts_iff {accepted : List FieldId} {deferred : Bool} :
    (resolution accepted deferred).Accepts id ↔ deferred = false ∧ id ∈ accepted := by
  unfold resolution
  cases deferred with
  | true => simp [QueryResolution.Accepts, QueryResolution.only]
  | false =>
    cases accepted with
    | nil => simp [QueryResolution.Accepts, QueryResolution.only]
    | cons first rest => simp [QueryResolution.Accepts]

theorem resolution_fields_subset (accepted : List FieldId) (deferred : Bool) :
    (resolution accepted deferred).fields ⊆ accepted := by
  unfold resolution
  split
  · exact List.nil_subset _
  · split
    · exact List.Subset.refl _
    · exact List.nil_subset _

theorem acceptOverloads_accepts_iff (ids : List FieldId) (budget : σ) (id : FieldId) :
    (ir.acceptOverloads «matches» query key ids [] false budget).1.Accepts id ↔
      undecided (ir.callAnswers «matches» query key ids budget) = false ∧
        (id, some true) ∈ ir.callAnswers «matches» query key ids budget := by
  rw [acceptOverloads_eq, resolution_accepts_iff]
  simp [affirmed]

variable {ids : List FieldId}

/-- Only exact declarations that pass the filters are selected where one of them has the shape. -/
theorem selected_of_exact (hexact : ir.exactDeclarations query.schema key = some ids)
    (hshape : ids.any (ir.ofShape query) = true) (budget : σ) :
    (ir.querySelectedFields «matches» query key budget).1.fields ⊆ ids.filter
      (ir.queryFieldPasses query) := by
  unfold querySelectedFields
  simp only [hexact, hshape, if_true]
  rw [acceptOverloads_eq]
  exact List.Subset.trans (resolution_fields_subset _ _)
    (ir.affirmed_subset «matches» query key _ budget)

/-! ## Patterns -/

/-- The fields refuse the key one after the other; the budgets before and after. -/
def Refuse : List FieldId → σ → σ → Prop
  | [], budget, after => after = budget
  | id :: ids, budget, after =>
    («matches» (ir.key id) key false budget).1 = some false ∧
      Refuse ids («matches» (ir.key id) key false budget).2 after

/-- The field is the first one to take the key, and passes. -/
def TakesFirst (id : FieldId) (candidates : List FieldId) (budget : σ) : Prop :=
  ∃ before after refused, candidates = before ++ id :: after ∧
    ir.Refuse «matches» key before budget refused ∧
    («matches» (ir.key id) key false refused).1 = some true ∧
    ir.queryFieldPasses query id = true ∧
    (ir.callAnswer «matches» query key id («matches» (ir.key id) key false refused).2).1 = some true

theorem dispatchPatterns_accepts_iff (id : FieldId) (candidates : List FieldId) : ∀ budget : σ,
    (ir.dispatchPatterns «matches» query key candidates budget).1.Accepts id ↔
      ir.TakesFirst «matches» query key id candidates budget := by
  induction candidates with
  | nil =>
    intro budget
    constructor
    · rintro ⟨hstate, -⟩
      cases hstate
    · rintro ⟨before, after, refused, heq, -⟩
      simp at heq
  | cons other candidates ih =>
    intro budget
    rcases hmatched : «matches» (ir.key other) key false budget with ⟨matched, next⟩
    -- the first candidate takes the key unless it refuses it
    have hfirst : matched ≠ some false →
      (ir.TakesFirst «matches» query key id (other :: candidates) budget ↔
        id = other ∧ matched = some true ∧ ir.queryFieldPasses query other = true ∧
          (ir.callAnswer «matches» query key other next).1 = some true) := by
      intro hne
      constructor
      · rintro ⟨before, after, refused, heq, hrefuse, hmatch, hpasses, hcall⟩
        cases before with
        | nil =>
          obtain rfl : refused = budget := hrefuse
          simp only [List.nil_append, List.cons.injEq] at heq
          obtain ⟨rfl, -⟩ := heq
          rw [hmatched] at hmatch hcall
          exact ⟨rfl, hmatch, hpasses, hcall⟩
        | cons first before =>
          simp only [List.cons_append, List.cons.injEq] at heq
          obtain ⟨rfl, -⟩ := heq
          have hfalse := hrefuse.1
          rw [hmatched] at hfalse
          exact absurd hfalse hne
      · rintro ⟨rfl, rfl, hpasses, hcall⟩
        refine ⟨[], candidates, budget, rfl, rfl, ?_, hpasses, ?_⟩
        · rw [hmatched]
        · rw [hmatched]
          exact hcall
    have hlater : matched = some false →
      (ir.TakesFirst «matches» query key id (other :: candidates) budget ↔
        ir.TakesFirst «matches» query key id candidates next) := by
      rintro rfl
      constructor
      · rintro ⟨before, after, refused, heq, hrefuse, hmatch, hrest⟩
        cases before with
        | nil =>
          obtain rfl : refused = budget := hrefuse
          simp only [List.nil_append, List.cons.injEq] at heq
          obtain ⟨rfl, -⟩ := heq
          rw [hmatched] at hmatch
          cases hmatch
        | cons first before =>
          simp only [List.cons_append, List.cons.injEq] at heq
          obtain ⟨rfl, rfl⟩ := heq
          have hrefuse := hrefuse.2
          rw [hmatched] at hrefuse
          exact ⟨before, after, refused, rfl, hrefuse, hmatch, hrest⟩
      · rintro ⟨before, after, refused, rfl, hrefuse, hrest⟩
        refine ⟨other :: before, after, refused, rfl, ⟨?_, ?_⟩, hrest⟩
        · rw [hmatched]
        · rw [hmatched]
          exact hrefuse
    simp only [dispatchPatterns, hmatched]
    rcases matched with _ | _ | _
    · rw [hfirst (by simp)]
      simp [QueryResolution.Accepts, QueryResolution.only]
    · rw [hlater rfl]
      exact ih next
    · rw [hfirst (by simp)]
      by_cases hpasses : ir.queryFieldPasses query other = true
      · simp only [hpasses, if_true]
        rcases hcall : (ir.callAnswer «matches» query key other next).1 with _ | _ | _
        · simp [QueryResolution.Accepts, QueryResolution.only]
        · simp [QueryResolution.Accepts, QueryResolution.only]
        · simp [QueryResolution.Accepts]
      · simp [hpasses, QueryResolution.Accepts, QueryResolution.only]

theorem selected_of_patterns_iff
    (h : ∀ ids, ir.exactDeclarations query.schema key = some ids →
      ids.any (ir.ofShape query) = false)
    (budget : σ) (id : FieldId) :
    (ir.querySelectedFields «matches» query key budget).1.Accepts id ↔
      ir.TakesFirst «matches» query key id
        ((ir.schema query.schema).patterns.filter (ir.ofShape query)) budget := by
  unfold querySelectedFields
  split
  · rename_i ids hids
    simp only [h ids hids, Bool.false_eq_true, if_false]
    exact ir.dispatchPatterns_accepts_iff «matches» query key id _ budget
  · exact ir.dispatchPatterns_accepts_iff «matches» query key id _ budget

/-! ## The enumeration and the selection -/

theorem ofShape_of_passes {query : FieldQuery} (h : ir.queryFieldPasses query id = true) :
    ir.ofShape query id = true := by
  unfold queryFieldPasses at h
  split at h
  · cases h
  · simp only [Bool.and_eq_true] at h
    exact h.1.1.1.1.2

theorem passes_of_mem_querySourceFields {query : FieldQuery}
    (h : id ∈ ir.querySourceFields query) : ir.queryFieldPasses query id = true :=
  (List.mem_filter.mp h).2

/-- An exact declaration is found by the text it is declared under. -/
theorem exactDeclarations_ownKey {schema : SchemaId} {symbol : Symbol}
    (hids : (ir.schema schema).exact[symbol]? = some ids) (hid : id ∈ ids) :
    ∃ key, ir.ownKey id = some key ∧ ir.exactDeclarations schema key = some ids := by
  have hmem : ir.schema schema ∈ ir.schemas := by
    unfold RulesIr.schema at hids ⊢
    rcases hschema : ir.schemas[schema]? with _ | found
    · simp [List.getD, hschema] at hids
    · simp only [List.getD, hschema, Option.getD_some]
      exact List.mem_of_getElem? hschema
  obtain ⟨field, provenance, text, hfield, hkey, -, hlookup⟩ :=
    ir.keyed _ hmem symbol ids hids id hid
  refine ⟨ir.strings.resolve text, ?_, ?_⟩
  · simp [ownKey, RulesIr.field, hfield, hkey]
  · simp [exactDeclarations, hlookup, hids]

/-- An enumerated exact declaration is selected by its own key, unless the proof of an empty
argument list that the query may ask for fails. -/
theorem enumerated_selected (hid : id ∈ ids) (hlisted : id ∈ ir.querySourceFields query)
    (hexact : ir.exactDeclarations query.schema key = some ids) (budget : σ) :
    (ir.querySelectedFields «matches» query key budget).1.Accepts id ↔
      undecided (ir.callAnswers «matches» query key (ids.filter (ir.queryFieldPasses query))
        budget) = false ∧
        (id, some true) ∈
          ir.callAnswers «matches» query key (ids.filter (ir.queryFieldPasses query)) budget := by
  have hpasses := ir.passes_of_mem_querySourceFields hlisted
  have hshape : ids.any (ir.ofShape query) = true :=
    List.any_eq_true.mpr ⟨id, hid, ir.ofShape_of_passes hpasses⟩
  unfold querySelectedFields
  simp only [hexact, hshape, if_true]
  exact ir.acceptOverloads_accepts_iff «matches» query key _ budget id

end

/-- Selection keeps to the exact declarations of the shape where there are some, and takes what the
enumeration lists: an exact declaration at its own key, another field where it is the first of its
shape to take the key. -/
theorem selection_agrees {σ : Type} («matches» : Matches σ) (query : FieldQuery) (budget : σ) :
    (∀ sibling key, ir.selectedKey query sibling = some key →
      ir.queryFields «matches» query sibling budget = ir.querySelectedFields «matches»
        query key budget) ∧
    (∀ key ids, ir.exactDeclarations query.schema key = some ids →
      ids.any (ir.ofShape query) = true →
      (ir.querySelectedFields «matches» query key budget).1.fields ⊆ ids.filter
        (ir.queryFieldPasses query)) ∧
    (∀ (symbol : Symbol) (ids : List FieldId), (ir.schema query.schema).exact[symbol]? = some ids →
      ∀ id ∈ ids, id ∈ ir.querySourceFields query → ∃ key, ir.ownKey id = some key ∧
        ((ir.querySelectedFields «matches» query key budget).1.Accepts id ↔
          undecided (ir.callAnswers «matches» query key (ids.filter (ir.queryFieldPasses query))
            budget) = false ∧
            (id, some true) ∈
              ir.callAnswers «matches» query key (ids.filter (ir.queryFieldPasses query)) budget) ∧
        (query.callArgsNone = false → (ir.querySelectedFields «matches» query key budget).1.Accepts
          id)) ∧
    ∀ key, (∀ ids, ir.exactDeclarations query.schema key = some ids →
      ids.any (ir.ofShape query) = false) →
      ∀ id, (ir.querySelectedFields «matches» query key budget).1.Accepts id ↔
        ir.TakesFirst «matches» query key id
          ((ir.schema query.schema).patterns.filter (ir.ofShape query)) budget := by
  refine ⟨?_, ?_, ?_, ?_⟩
  · intro sibling key h
    exact ir.queryFields_of_selectedKey «matches» query key h budget
  · intro key ids hexact hshape
    exact ir.selected_of_exact «matches» query key hexact hshape budget
  · intro symbol ids hids id hid hlisted
    obtain ⟨key, hkey, hexact⟩ := ir.exactDeclarations_ownKey hids hid
    have hiff := ir.enumerated_selected «matches» query key hid hlisted hexact budget
    refine ⟨key, hkey, hiff, ?_⟩
    intro hcalls
    rw [hiff, ir.callAnswers_of_no_calls «matches» query key hcalls]
    have hpasses := ir.passes_of_mem_querySourceFields hlisted
    constructor
    · simp [undecided]
    · exact List.mem_map.mpr ⟨id, List.mem_filter.mpr ⟨hid, hpasses⟩, rfl⟩
  · intro key h id
    exact ir.selected_of_patterns_iff «matches» query key h budget id

end RulesIr

/-! ## A pattern behind another one -/

/-- One block with two patterns of the key `scalar`; only the second field has a capability, which is all a
spec says here. -/
def patternSources : Sources (List Symbol) Unit where
  schemaDefs _ := some ⟨.block ⟨[], [], [("scalar".toList, []), ("scalar".toList, [0])], none, []⟩, ⟨0, []⟩⟩
  mixins _ := none
  register :=
    { run := fun lowering =>
        ((), { lowering with
          schemas := lowering.schemas ++ [⟨∅, []⟩]
          jobs := lowering.jobs ++ [⟨0, 0, [], ⟨0, []⟩⟩] })
      grows := fun lowering =>
        { Lowering.Grows.refl lowering with
          exact := by
            intro schema h
            rcases List.mem_append.mp h with h | h
            · exact .inr ⟨schema, h, rfl⟩
            · rw [List.mem_singleton.mp h]
              exact .inl rfl } }
  lowerExprText _ _ := internMatcher (.other 0)
  describe _ draft := pure ⟨.scalar 0, none, draft.spec, ()⟩

/-- The values that have the capability. -/
def capableQuery : FieldQuery :=
  ⟨0, .values, none, none, none, [], some 0, false⟩

/-- `scalar` takes every text that is not empty. -/
def scalarMatches : RulesIr.Matches Unit := fun _ text _ budget => (some !text.isEmpty, budget)

/-- What the two patterns are lowered to. -/
def patternIr : RulesIr Unit where
  strings := ⟨["/patterns/0".toList, "/patterns/1".toList]⟩
  matchers := [.other 0]
  fields := [(⟨0, .scalar 0, none, [], ()⟩, ⟨0, 0⟩), (⟨0, .scalar 0, none, [0], ()⟩, ⟨0, 1⟩)]
  schemas := [⟨∅, [0, 1]⟩]
  scopes := ⟨[], [], [], []⟩
  keyed := by
    intro schema hmem symbol ids h
    rw [List.mem_singleton.mp hmem] at h
    simp at h

/-- The second pattern is enumerated, and no key selects it. -/
theorem pattern_never_selected :
    ∃ ir, lower patternSources ⟨[], [], [], []⟩ 2 = some ir ∧
      1 ∈ ir.querySourceFields capableQuery ∧
      ∀ key, 1 ∉ (ir.querySelectedFields scalarMatches capableQuery key ()).1.fields := by
  refine ⟨patternIr, rfl, ?_, ?_⟩
  · apply List.mem_filter.mpr
    constructor
    · rw [RulesIr.allFields, List.mem_dedup, List.mem_mergeSort]
      exact List.mem_append_right _ (by decide)
    · decide
  · intro key
    have hexact : patternIr.exactDeclarations capableQuery.schema key = none := by
      unfold RulesIr.exactDeclarations
      cases patternIr.strings.lookupFolded key with
      | none => rfl
      | some symbol => simp [patternIr, RulesIr.schema, capableQuery]
    unfold RulesIr.querySelectedFields
    rw [hexact]
    cases key with
    | nil => decide
    | cons c key =>
      -- the first pattern takes the key and fails the filters
      have hfirst : patternIr.queryFieldPasses capableQuery 0 = false := by decide
      have hcandidates : (patternIr.schema capableQuery.schema).patterns.filter
          (patternIr.ofShape capableQuery) = [0, 1] := by decide
      simp [hcandidates, RulesIr.dispatchPatterns, scalarMatches, hfirst, QueryResolution.only]

end ParadoxCode.Rules.FieldQueries
