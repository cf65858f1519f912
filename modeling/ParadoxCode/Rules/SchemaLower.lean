import Std.Data.ExtTreeMap
import ParadoxCode.Rules.ScopeModel

/-!
# Lowered schemas

1. The schemas, fields and matchers of a compiled rule set (`ir.rs`), with what the field queries
read of them.
2. The lowering of a schema instance (`lower_instance` and below in `lower.rs`). Type expressions
and what a field says besides its key are stretches of the pass (`Pass`): they may add to the set,
but they declare no exact key.
3. A field declared under an exact key has that key for its matcher, and the key finds the
declaration again in any case (`Keyed`). A compiled rule set carries this (`RulesIr`).
-/

namespace ParadoxCode.Rules.FieldQueries

open Format
open Std (ExtTreeMap)

/-! ## The compiled set -/

abbrev SchemaId := Nat

abbrev FieldId := Nat

/-- A matcher. The field queries do not tell the others apart. -/
inductive Matcher where
  | literal (text : Symbol)
  | int
  | float
  | bool
  | union (branches : List MatcherId)
  | other (kind : Nat)
  deriving DecidableEq

inductive FieldValue where
  | scalar (matcher : MatcherId)
  | block (schema : SchemaId)
  | selfBlock
  deriving DecidableEq

/-- The scopes a field is valid in; none means any. -/
structure ScopeEffect where
  scopesIn : List Symbol
  deriving DecidableEq

/-- A field. `Rest` is what the queries do not read. -/
structure Field (Rest : Type) where
  key : MatcherId
  value : FieldValue
  scope : Option ScopeEffect
  capabilities : List Symbol
  rest : Rest
  deriving DecidableEq

/-- A block: the exact keys, folded, with their overloads, and the other keys in written order. -/
structure Schema where
  exact : ExtTreeMap Symbol (List FieldId)
  patterns : List FieldId

/-- Where a field is declared. -/
structure Provenance where
  file : Symbol
  pointer : Symbol
  deriving DecidableEq

/-! ## Sources -/

/-- A place in a source file. -/
structure At where
  file : Symbol
  pointer : Str
  deriving DecidableEq

/-- `escape_pointer`. -/
def escapePointer (segment : Str) : Str :=
  (segment.flatMap fun c => if c = '~' then "~0".toList else [c]).flatMap fun c =>
    if c = '/' then "~1".toList else [c]

def At.child («at» : At) (segment : Str) : At :=
  ⟨«at».file, «at».pointer ++ '/' :: escapePointer segment⟩

def At.index («at» : At) (index : Nat) : At :=
  «at».child (toString index).toList

variable {Spec Rest : Type}

/-- One field of a source, or several overloads. -/
inductive FieldOverloads (Spec : Type) where
  | one (field : Spec)
  | many (fields : List Spec)

/-- The specs of an exact key, with their places. -/
def FieldOverloads.placed («at» : At) : FieldOverloads Spec → List (Spec × At)
  | one field => [(field, «at»)]
  | many fields => fields.zipIdx.map fun (spec, index) => (spec, «at».index index)

/-- A block of a source. The forms are left with the names they intern. -/
structure BlockSchema (Spec : Type) where
  «include» : List Str
  fields : List (Str × FieldOverloads Spec)
  patterns : List (Str × Spec)
  items : Option Str
  forms : List (List Str)

inductive SchemaSpec (Spec : Type) where
  | block (block : BlockSchema Spec)
  | map (key : Str) (spec : Spec)
  | list (item : Str)

structure SchemaSource (Spec : Type) where
  spec : SchemaSpec Spec
  «at» : At

/-- The formal parameters of an instance with their arguments. -/
abbrev Formals := List (Symbol × Option Symbol)

/-- A schema instance waiting to be expanded. -/
structure Job where
  schema : SchemaId
  base : Symbol
  formals : Formals
  «at» : At

/-- Where a draft field takes its key from. -/
inductive DraftKey where
  | exact (text : Str)
  | expression (raw : Str)

/-- A field about to be lowered. -/
structure FieldDraft (Spec : Type) where
  spec : Spec
  key : DraftKey
  «at» : At

/-! ## The pass -/

/-- The working state of `Lowering`. -/
structure Lowering (Rest : Type) where
  strings : Interner
  matchers : List Matcher
  fields : List (Field Rest × Provenance)
  schemas : List Schema
  jobs : List Job

/-- What a stretch of the pass may do: add texts, matchers, fields, jobs and schemas, and change the
schemas there are. It declares no exact key. -/
structure Lowering.Grows (before after : Lowering Rest) : Prop where
  strings : before.strings.Extends after.strings
  matchers : before.matchers <+: after.matchers
  fields : before.fields <+: after.fields
  exact : ∀ schema ∈ after.schemas, schema.exact = ∅ ∨ ∃ earlier ∈ before.schemas,
    earlier.exact = schema.exact

theorem Lowering.Grows.refl (lowering : Lowering Rest) : lowering.Grows lowering :=
  ⟨.refl _, List.prefix_rfl, List.prefix_rfl, fun schema h => .inr ⟨schema, h, rfl⟩⟩

theorem Lowering.Grows.trans {a b c : Lowering Rest} (hab : a.Grows b) (hbc : b.Grows c) :
    a.Grows c where
  strings := hab.strings.trans hbc.strings
  matchers := hab.matchers.trans hbc.matchers
  fields := hab.fields.trans hbc.fields
  exact schema h := by
    rcases hbc.exact schema h with hempty | ⟨middle, hmem, heq⟩
    · exact .inl hempty
    · rcases hab.exact middle hmem with hempty | ⟨earlier, hearlier, heq'⟩
      · exact .inl (heq ▸ hempty)
      · exact .inr ⟨earlier, hearlier, heq'.trans heq⟩

/-- A stretch of the pass. -/
structure Pass (Rest α : Type) where
  run : Lowering Rest → α × Lowering Rest
  grows : ∀ lowering : Lowering Rest, lowering.Grows (run lowering).2

instance : Monad (Pass Rest) where
  pure a := ⟨fun lowering => (a, lowering), Lowering.Grows.refl⟩
  bind m f := ⟨fun lowering => (f (m.run lowering).1).run (m.run lowering).2,
    fun lowering => (m.grows lowering).trans ((f _).grows _)⟩

namespace Pass

variable {α β : Type}

@[simp]
theorem run_pure (a : α) (lowering : Lowering Rest) : (pure a : Pass Rest α).run lowering =
    (a, lowering) := rfl

@[simp]
theorem run_bind (m : Pass Rest α) (f : α → Pass Rest β) (lowering : Lowering Rest) :
    (m >>= f).run lowering = (f (m.run lowering).1).run (m.run lowering).2 := rfl

end Pass

/-- `intern_verbatim`. -/
def internVerbatim (text : Str) : Pass Rest Symbol where
  run lowering :=
    let (symbol, strings) := lowering.strings.internVerbatim text
    (symbol, { lowering with strings })
  grows lowering :=
    { Lowering.Grows.refl lowering with strings := lowering.strings.extends_internVerbatim text }

/-- `intern_folded`. -/
def internFolded (text : Str) : Pass Rest Symbol :=
  internVerbatim (toAsciiLowercase text)

/-- `intern_matcher`. -/
def internMatcher (matcher : Matcher) : Pass Rest MatcherId where
  run lowering :=
    match lowering.matchers.idxOf? matcher with
    | some existing => (existing, lowering)
    | none => (lowering.matchers.length,
        { lowering with matchers := lowering.matchers ++ [matcher] })
  grows lowering := by
    split
    · exact .refl lowering
    · exact { Lowering.Grows.refl lowering with matchers := List.prefix_append _ _ }

/-- The end of `lower_field`: a field declared before at the same place is stored once. -/
def pushField [DecidableEq Rest] (field : Field Rest) (provenance : Provenance) :
    Pass Rest FieldId where
  run lowering :=
    match lowering.fields.idxOf? (field, provenance) with
    | some existing => (existing, lowering)
    | none => (lowering.fields.length,
        { lowering with fields := lowering.fields ++ [(field, provenance)] })
  grows lowering := by
    split
    · exact .refl lowering
    · exact { Lowering.Grows.refl lowering with fields := List.prefix_append _ _ }

/-- What a field says besides its key. -/
structure Described (Rest : Type) where
  value : FieldValue
  scope : Option ScopeEffect
  capabilities : List Symbol
  rest : Rest

/-- The sources, with the rest of lowering. -/
structure Sources (Spec Rest : Type) where
  schemaDefs : Symbol → Option (SchemaSource Spec)
  mixins : Symbol → Option (List (Str × FieldOverloads Spec) × At)
  /-- `register_names` up to `register_files`. -/
  register : Pass Rest Unit
  /-- `lower_expr_text`. -/
  lowerExprText : Formals → Str → Pass Rest MatcherId
  /-- The value, scope, capabilities and the rest in `lower_field`. -/
  describe : Formals → FieldDraft Spec → Pass Rest (Described Rest)

section

variable [DecidableEq Rest] (sources : Sources Spec Rest) (formals : Formals)

def lowerKey : DraftKey → Pass Rest MatcherId
  | .exact text => do
    let text ← internVerbatim text
    internMatcher (.literal text)
  | .expression raw => sources.lowerExprText formals raw

def lowerField (draft : FieldDraft Spec) : Pass Rest FieldId := do
  let key ← lowerKey sources formals draft.key
  let described ← sources.describe formals draft
  let pointer ← internVerbatim draft.at.pointer
  pushField ⟨key, described.value, described.scope, described.capabilities, described.rest⟩
    ⟨draft.at.file, pointer⟩

/-- The overloads of an exact key. -/
def lowerOverloads (key : Str) : List (Spec × At) → Pass Rest (List FieldId)
  | [] => pure []
  | (spec, specAt) :: specs => do
    let id ← lowerField sources formals ⟨spec, .exact key, specAt⟩
    let ids ← lowerOverloads key specs
    pure (id :: ids)

/-- A declaration of an exact key with its place. -/
abbrev Declaration (Spec : Type) := Str × FieldOverloads Spec × At

/-- The declarations of the included mixins. -/
def mixinDeclarations : List Str → Pass Rest (List (Declaration Spec))
  | [] => pure []
  | name :: names => do
    let symbol ← internFolded name
    let declared := match sources.mixins symbol with
      | none => []
      | some (fields, mixinAt) => fields.map fun (key, overloads) =>
          (key, overloads, (mixinAt.child "fields".toList).child key)
    let others ← mixinDeclarations names
    pure (declared ++ others)

/-- The block's own declaration takes the place of the first one of the key. -/
def mergeDeclaration (merged : List (Declaration Spec)) (declared : Declaration Spec) :
    List (Declaration Spec) :=
  match merged.findIdx? fun existing => eqIgnoreAsciiCase existing.1 declared.1 with
  | some index => merged.set index declared
  | none => merged ++ [declared]

/-- The loop of `lower_exact_fields` over the merged declarations. -/
def lowerDeclarations : List (Declaration Spec) → ExtTreeMap Symbol (List FieldId) →
    Pass Rest (ExtTreeMap Symbol (List FieldId))
  | [], exact => pure exact
  | (key, overloads, keyAt) :: declarations, exact => do
    let symbol ← internFolded key
    let ids ← lowerOverloads sources formals key (overloads.placed keyAt)
    lowerDeclarations declarations (exact.insert symbol ids)

def lowerExactFields (block : BlockSchema Spec) («at» : At) :
    Pass Rest (ExtTreeMap Symbol (List FieldId)) := do
  let mixed ← mixinDeclarations sources block.include
  let merged := block.fields.foldl (fun merged (key, overloads) =>
    mergeDeclaration merged (key, overloads, («at».child "fields".toList).child key)) mixed
  lowerDeclarations sources formals merged ∅

def lowerPattern (key : Str) (spec : Spec) («at» : At) : Pass Rest FieldId :=
  lowerField sources formals ⟨spec, .expression key, «at»⟩

/-- The patterns of a block. -/
def lowerPatterns («at» : At) : List ((Str × Spec) × Nat) → Pass Rest (List FieldId)
  | [] => pure []
  | ((key, spec), index) :: patterns => do
    let id ← lowerPattern sources formals key spec (At.index («at».child "patterns".toList) index)
    let ids ← lowerPatterns «at» patterns
    pure (id :: ids)

def internAll : List Str → Pass Rest Unit
  | [] => pure ()
  | name :: names => do
    let _ ← internFolded name
    internAll names

/-- The schema of an instance. -/
def lowerSpec («at» : At) : SchemaSpec Spec → Pass Rest Schema
  | .block block => do
    let exact ← lowerExactFields sources formals block «at»
    let patterns ← lowerPatterns sources formals «at» block.patterns.zipIdx
    if let some items := block.items then
      let _ ← sources.lowerExprText formals items
    internAll block.forms.flatten
    pure ⟨exact, patterns⟩
  | .map key spec => do
    let id ← lowerPattern sources formals key spec («at».child "map".toList)
    pure ⟨∅, [id]⟩
  | .list item => do
    let _ ← sources.lowerExprText formals item
    pure ⟨∅, []⟩

end

section

variable [DecidableEq Rest] (sources : Sources Spec Rest)

def lowerInstance (job : Job) (lowering : Lowering Rest) : Lowering Rest :=
  match sources.schemaDefs job.base with
  | none => lowering
  | some source =>
    let (schema, lowering) := (lowerSpec sources job.formals job.at source.spec).run lowering
    { lowering with schemas := lowering.schemas.set job.schema schema }

/-- `drain_jobs`. An instance may queue further ones. -/
def drainJobs : Nat → Lowering Rest → Option (Lowering Rest)
  | 0, _ => none
  | fuel + 1, lowering =>
    match lowering.jobs with
    | [] => some lowering
    | job :: jobs => drainJobs fuel (lowerInstance sources job { lowering with jobs })

end

/-! ## Exact declarations find their key -/

/-- The field is declared under a key of the symbol. -/
def Declares (strings : Interner) (matchers : List Matcher)
    (fields : List (Field Rest × Provenance)) (symbol : Symbol) (id : FieldId) : Prop :=
  ∃ field provenance text, fields[id]? = some (field, provenance) ∧
    matchers[field.key]? = some (.literal text) ∧ strings.Has text ∧
      strings.lookupFolded (strings.resolve text) = some symbol

/-- Every exact declaration is found by its own key. -/
def KeyedExact (lowering : Lowering Rest) (exact : ExtTreeMap Symbol (List FieldId)) : Prop :=
  ∀ symbol ids, exact[symbol]? = some ids → ∀ id ∈ ids,
    Declares lowering.strings lowering.matchers lowering.fields symbol id

def Keyed (lowering : Lowering Rest) : Prop :=
  ∀ schema ∈ lowering.schemas, KeyedExact lowering schema.exact

theorem lookupFolded_extends {before after : Interner} (h : before.Extends after) {text : Str}
    {symbol : Symbol} (hlookup : before.lookupFolded text = some symbol) :
    after.lookupFolded text = some symbol := by
  obtain ⟨more, hmore⟩ := h
  unfold Interner.lookupFolded List.idxOf? at *
  rw [← hmore, List.findIdx?_append, hlookup]
  rfl

theorem resolve_internVerbatim (strings : Interner) (text : Str) :
    (strings.internVerbatim text).2.resolve (strings.internVerbatim text).1 = text := by
  unfold Interner.internVerbatim Interner.resolve
  split
  · rename_i symbol h
    obtain ⟨hlt, heq, -⟩ := List.findIdx?_eq_some_iff_getElem.mp h
    simp only [List.getElem?_eq_getElem hlt, Option.getD_some]
    simpa using heq
  · simp

/-- A folded name is found in any case. -/
theorem lookupFolded_internVerbatim (strings : Interner) (text : Str) :
    (strings.internVerbatim (toAsciiLowercase text)).2.lookupFolded text =
      some (strings.internVerbatim (toAsciiLowercase text)).1 := by
  unfold Interner.internVerbatim Interner.lookupFolded
  split
  · rename_i symbol h
    exact h
  · rename_i h
    unfold List.idxOf? at *
    rw [List.findIdx?_append, h]
    simp

theorem getElem?_of_isPrefix {α : Type} {before after : List α} (h : before <+: after)
    {index : Nat} {a : α} (ha : before[index]? = some a) : after[index]? = some a := by
  obtain ⟨more, rfl⟩ := h
  rw [List.getElem?_append_left (List.getElem?_eq_some_iff.mp ha).1, ha]

theorem Declares.grows {before after : Lowering Rest} (h : before.Grows after) {symbol : Symbol}
    {id : FieldId} (hdeclares : Declares before.strings before.matchers before.fields symbol id) :
    Declares after.strings after.matchers after.fields symbol id := by
  obtain ⟨field, provenance, text, hfield, hkey, htext, hlookup⟩ := hdeclares
  refine ⟨field, provenance, text, ?_, ?_, h.strings.has htext, ?_⟩
  · exact getElem?_of_isPrefix h.fields hfield
  · exact getElem?_of_isPrefix h.matchers hkey
  · rw [h.strings.resolve htext]
    exact lookupFolded_extends h.strings hlookup

theorem KeyedExact.grows {before after : Lowering Rest} (h : before.Grows after)
    {exact : ExtTreeMap Symbol (List FieldId)} (hkeyed : KeyedExact before exact) :
    KeyedExact after exact :=
  fun symbol ids hids id hid => (hkeyed symbol ids hids id hid).grows h

theorem keyedExact_empty (lowering : Lowering Rest) : KeyedExact lowering ∅ := by
  intro symbol ids h
  simp at h

theorem Keyed.grows {before after : Lowering Rest} (h : before.Grows after)
    (hkeyed : Keyed before) : Keyed after := by
  intro schema hmem
  rcases h.exact schema hmem with hempty | ⟨earlier, hearlier, heq⟩
  · rw [hempty]
    exact keyedExact_empty after
  · rw [← heq]
    exact (hkeyed earlier hearlier).grows h

@[simp]
theorem run_internVerbatim (text : Str) (lowering : Lowering Rest) :
    (internVerbatim text).run lowering = ((lowering.strings.internVerbatim text).1,
      { lowering with strings := (lowering.strings.internVerbatim text).2 }) := rfl

theorem matchers_internMatcher (matcher : Matcher) (lowering : Lowering Rest) :
    ((internMatcher matcher).run lowering).2.matchers[((internMatcher matcher).run lowering).1]? =
      some matcher := by
  simp only [internMatcher]
  split
  · rename_i existing h
    obtain ⟨hlt, heq, -⟩ := List.findIdx?_eq_some_iff_getElem.mp h
    rw [List.getElem?_eq_getElem hlt]
    simpa using heq
  · simp

section

variable [DecidableEq Rest]

theorem fields_pushField (field : Field Rest) (provenance : Provenance) (lowering : Lowering Rest) :
    ((pushField field provenance).run
      lowering).2.fields[((pushField field provenance).run lowering).1]? =
      some (field, provenance) := by
  simp only [pushField]
  split
  · rename_i existing h
    obtain ⟨hlt, heq, -⟩ := List.findIdx?_eq_some_iff_getElem.mp h
    rw [List.getElem?_eq_getElem hlt]
    simpa using heq
  · simp

variable (sources : Sources Spec Rest) (formals : Formals)

/-- A field lowered under an exact key declares the symbol of the folded key. -/
theorem declares_lowerField (spec : Spec) {key : Str} (specAt : At) {lowering : Lowering Rest}
    {symbol : Symbol} (h : lowering.strings.lookupFolded key = some symbol) :
    Declares ((lowerField sources formals ⟨spec, .exact key, specAt⟩).run lowering).2.strings
      ((lowerField sources formals ⟨spec, .exact key, specAt⟩).run lowering).2.matchers
      ((lowerField sources formals ⟨spec, .exact key, specAt⟩).run lowering).2.fields symbol
      ((lowerField sources formals ⟨spec, .exact key, specAt⟩).run lowering).1 := by
  -- the states behind the key's text, its matcher, what else the field says and its place
  generalize hinterned : (internVerbatim key : Pass Rest Symbol).run lowering = interned
  generalize hkeyed : (lowerKey sources formals (.exact key)).run lowering = keyed
  generalize hdescribed : (sources.describe formals ⟨spec, .exact key, specAt⟩).run
    keyed.2 = described
  generalize hplaced : (internVerbatim specAt.pointer : Pass Rest Symbol).run described.2 = placed
  have hkey : keyed.2.matchers[keyed.1]? = some (.literal interned.1) ∧
    interned.2.Grows keyed.2 := by
    rw [← hkeyed]
    simp only [lowerKey, Pass.run_bind, hinterned]
    exact ⟨matchers_internMatcher _ _, (internMatcher _).grows _⟩
  have hdescribes : keyed.2.Grows described.2 := hdescribed ▸ Pass.grows _ _
  have hplaces : described.2.Grows placed.2 := hplaced ▸ Pass.grows _ _
  let field : Field Rest :=
    ⟨keyed.1, described.1.value, described.1.scope, described.1.capabilities, described.1.rest⟩
  have hrun : (lowerField sources formals ⟨spec, .exact key, specAt⟩).run lowering =
      (pushField field ⟨specAt.file, placed.1⟩).run placed.2 := by
    simp only [lowerField, Pass.run_bind, hkeyed, hdescribed, hplaced, field]
  rw [hrun]
  have hpushes : placed.2.Grows ((pushField field ⟨specAt.file, placed.1⟩).run placed.2).2 :=
    Pass.grows _ _
  have hafter := (hdescribes.trans hplaces).trans hpushes
  have htext : interned.2.strings.Has interned.1 ∧ interned.2.strings.resolve interned.1 = key ∧
      interned.2.strings.lookupFolded key = some symbol := by
    rw [← hinterned, run_internVerbatim]
    exact ⟨Interner.has_internVerbatim _ _, resolve_internVerbatim _ _,
      lookupFolded_extends (Interner.extends_internVerbatim _ _) h⟩
  obtain ⟨hhas, hresolve, hlookup⟩ := htext
  have hstrings := (hkey.2.trans hafter).strings
  refine ⟨field, _, interned.1, fields_pushField _ _ _, getElem?_of_isPrefix hafter.matchers hkey.1,
    hstrings.has hhas, ?_⟩
  rw [hstrings.resolve hhas, hresolve]
  exact lookupFolded_extends hstrings hlookup

theorem declares_lowerOverloads {key : Str} {symbol : Symbol} (specs : List (Spec × At)) :
    ∀ {lowering : Lowering Rest}, lowering.strings.lookupFolded key = some symbol →
      ∀ id ∈ ((lowerOverloads sources formals key specs).run lowering).1,
        Declares ((lowerOverloads sources formals key specs).run lowering).2.strings
          ((lowerOverloads sources formals key specs).run lowering).2.matchers
          ((lowerOverloads sources formals key specs).run lowering).2.fields symbol id := by
  induction specs with
  | nil =>
    intro lowering h id hid
    simp [lowerOverloads] at hid
  | cons spec specs ih =>
    obtain ⟨spec, specAt⟩ := spec
    intro lowering h id hid
    simp only [lowerOverloads, Pass.run_bind, Pass.run_pure] at hid ⊢
    have hfield := declares_lowerField sources formals spec specAt h
    have hgrows := (lowerField sources formals ⟨spec, .exact key, specAt⟩).grows lowering
    rcases List.mem_cons.mp hid with rfl | hid
    · exact hfield.grows (Pass.grows _ _)
    · exact ih (lookupFolded_extends hgrows.strings h) id hid

theorem keyedExact_lowerDeclarations (declarations : List (Declaration Spec)) :
    ∀ {lowering : Lowering Rest} {exact : ExtTreeMap Symbol (List FieldId)},
      KeyedExact lowering exact →
      KeyedExact ((lowerDeclarations sources formals declarations exact).run lowering).2
        ((lowerDeclarations sources formals declarations exact).run lowering).1 := by
  induction declarations with
  | nil =>
    intro lowering exact h
    exact h
  | cons declared declarations ih =>
    obtain ⟨key, overloads, keyAt⟩ := declared
    intro lowering exact h
    simp only [lowerDeclarations, Pass.run_bind]
    apply ih
    have hsymbol : ((internFolded key : Pass Rest Symbol).run lowering).2.strings.lookupFolded key =
        some ((internFolded key : Pass Rest Symbol).run lowering).1 :=
      lookupFolded_internVerbatim _ _
    intro symbol ids hids id hid
    rw [ExtTreeMap.getElem?_insert] at hids
    split at hids
    · rename_i heq
      have heq := compare_eq_iff_eq.mp heq
      obtain rfl := Option.some.inj hids
      rw [← heq]
      exact declares_lowerOverloads sources formals _ hsymbol id hid
    · exact (h symbol ids hids id hid).grows ((Pass.grows _ _).trans (Pass.grows _ _))

theorem keyedExact_lowerSpec («at» : At) (spec : SchemaSpec Spec) (lowering : Lowering Rest) :
    KeyedExact ((lowerSpec sources formals «at» spec).run lowering).2
      ((lowerSpec sources formals «at» spec).run lowering).1.exact := by
  cases spec with
  | block block =>
    have hexact : KeyedExact ((lowerExactFields sources formals block «at»).run lowering).2
        ((lowerExactFields sources formals block «at»).run lowering).1 :=
      keyedExact_lowerDeclarations sources formals _ (keyedExact_empty _)
    simp only [lowerSpec, Pass.run_bind]
    cases block.items with
    | none => exact hexact.grows ((Pass.grows _ _).trans (Pass.grows _ _))
    | some items => exact hexact.grows ((Pass.grows _ _).trans
        ((Pass.grows _ _).trans (Pass.grows _ _)))
  | map key spec => exact keyedExact_empty _
  | list item => exact keyedExact_empty _

end

section

variable [DecidableEq Rest] (sources : Sources Spec Rest)

theorem keyed_lowerInstance (job : Job) {lowering : Lowering Rest} (h : Keyed lowering) :
    Keyed (lowerInstance sources job lowering) := by
  unfold lowerInstance
  split
  · exact h
  · rename_i source hsource
    have hspec := keyedExact_lowerSpec sources job.formals job.at source.spec lowering
    have hkeyed := h.grows ((lowerSpec sources job.formals job.at source.spec).grows lowering)
    intro schema hmem
    rcases List.mem_or_eq_of_mem_set hmem with hmem | rfl
    · exact hkeyed schema hmem
    · exact hspec

/-- Every run of the queue keeps the exact declarations under their keys. -/
theorem keyed_drainJobs (fuel : Nat) : ∀ {lowering after : Lowering Rest}, Keyed lowering →
    drainJobs sources fuel lowering = some after → Keyed after := by
  induction fuel with
  | zero =>
    intro lowering after h hdrain
    simp [drainJobs] at hdrain
  | succ fuel ih =>
    intro lowering after h hdrain
    unfold drainJobs at hdrain
    split at hdrain
    · obtain rfl := Option.some.inj hdrain
      exact h
    · rename_i job jobs hjobs
      have htaken : Keyed { lowering with jobs } := h
      exact ih (keyed_lowerInstance sources job htaken) hdrain

end

/-! ## Compiled rule sets -/

/-- What the field queries read of a compiled rule set. -/
structure RulesIr (Rest : Type) where
  strings : Interner
  matchers : List Matcher
  fields : List (Field Rest × Provenance)
  schemas : List Schema
  scopes : ScopeModel
  keyed : ∀ schema ∈ schemas, ∀ symbol ids, schema.exact[symbol]? = some ids → ∀ id ∈ ids,
    Declares strings matchers fields symbol id

/-- Nothing lowered yet. -/
def Lowering.new : Lowering Rest := ⟨⟨[]⟩, [], [], [], []⟩

theorem keyed_new : Keyed (.new : Lowering Rest) := by
  intro schema h
  simp [Lowering.new] at h

/-- `assemble`. -/
def Lowering.assemble (lowering : Lowering Rest) (scopes : ScopeModel) (h : Keyed lowering) :
    RulesIr Rest :=
  ⟨lowering.strings, lowering.matchers, lowering.fields, lowering.schemas, scopes, h⟩

/-- `lower`: the registered sources, and then the queued instances. -/
def lower [DecidableEq Rest] (sources : Sources Spec Rest) (scopes : ScopeModel)
    (fuel : Nat) : Option (RulesIr Rest) :=
  match h : drainJobs sources fuel (sources.register.run .new).2 with
  | none => none
  | some lowering => some (lowering.assemble scopes
      (keyed_drainJobs sources fuel (keyed_new.grows (sources.register.grows .new)) h))

end ParadoxCode.Rules.FieldQueries
