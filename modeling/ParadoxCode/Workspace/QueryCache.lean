import ParadoxCode.Lib.Trace
import ParadoxCode.Workspace.Host

/-!
# The query cache of the snapshots

`query_cache.rs`: results of queries by domain, kept with the watermarks of three lineages. Every
operation holds the lock from its beginning to its end, so that a run is a sequence of operations.
Values are opaque, and a reader takes them for what it expects by a downcast.

1. The cache, with `get`, `insert` and the three advances.
2. Runs. Hosts that share a cache advance it in any order; a snapshot is of a revision that one of
them has reached.
3. What `get` returns was stored at a revision that no advance separates from the reader.
-/

namespace ParadoxCode.Workspace.QueryCache

open Engine.Store (Platform)

/-! ## The cache -/

inductive CacheDomain where
  | index
  | documents
  | frontends
  | definitions
  | searchTexts
  | searchLocalisations
  | sourceOwnership
  | searchLocalisationReuse
  deriving DecidableEq

abbrev Entries (V : Type) : Type := Std.ExtTreeMap Str V

/-- `CacheState`, with its maps by domain. -/
structure CacheState (V : Type) where
  indexRevision : Option Nat := none
  documentsRevision : Option Nat := none
  definitionsRevision : Option Nat := none
  entries : CacheDomain → Entries V := fun _ => ∅

/-- The call by which a host moves its cache on. -/
inductive Advance where
  | advanceTo
  | advanceDocuments
  | advanceDefinitions
  deriving DecidableEq

namespace CacheState

variable {V T : Type} (state : CacheState V)

/-- Whether the entries of a domain answer a reader. -/
def answers (revision : Nat) : CacheDomain → Bool
  | .searchLocalisationReuse => true
  | .documents | .frontends | .searchLocalisations => state.documentsRevision == some revision
  | .sourceOwnership | .searchTexts | .index =>
    state.indexRevision.any fun current => decide (current ≤ revision)
  | .definitions => state.definitionsRevision.any fun current => decide (current ≤ revision)

/-- The domains in the order `get` asks them. -/
def order : List CacheDomain :=
  [.searchLocalisationReuse, .documents, .frontends, .searchLocalisations,
    .sourceOwnership, .searchTexts, .definitions, .index]

/-- `get`; `downcast` reads a value as what the caller has stored. -/
def get (downcast : V → Option T) (revision : Nat) (key : Str) : Option T :=
  (order.findSome? fun domain =>
    if state.answers revision domain = true then (state.entries domain)[key]? else
      none).bind downcast

/-- `clear` on the maps of some domains. -/
def clear (domains : List CacheDomain) : CacheState V :=
  { state with entries := fun domain => if domain ∈ domains then ∅ else state.entries domain }

/-- An insert of results of the open documents: a newer revision clears them. -/
def admitDocuments (revision : Nat) : Option (CacheState V) :=
  match state.documentsRevision with
  | none => some { state with documentsRevision := some revision }
  | some current =>
    if revision < current then none
    else if current < revision then
      some { state.clear [.documents, .frontends, .searchLocalisations] with
        documentsRevision := some revision }
    else some state

/-- An insert that joins the lineage of the index. -/
def admitIndex (revision : Nat) : Option (CacheState V) :=
  match state.indexRevision with
  | none => some { state with indexRevision := some revision }
  | some current => if revision < current then none else some state

/-- An insert that joins the lineage of the definitions. -/
def admitDefinitions (revision : Nat) : Option (CacheState V) :=
  match state.definitionsRevision with
  | none => some { state with definitionsRevision := some revision }
  | some current => if revision < current then none else some state

/-- The state an entry is stored in; `none` where `insert` drops it. -/
def admitInto (revision : Nat) : CacheDomain → Option (CacheState V)
  | .sourceOwnership =>
    if (state.documentsRevision.any fun current => decide (revision < current)) = true then none
    else some { state with indexRevision := some (state.indexRevision.getD revision) }
  | .searchLocalisationReuse =>
    if (state.documentsRevision.any fun current => decide (revision < current)) = true then none
    else some state
  | .documents | .frontends | .searchLocalisations => state.admitDocuments revision
  | .index | .searchTexts => state.admitIndex revision
  | .definitions => state.admitDefinitions revision

/-- The bound of a domain. -/
def bound (capacity : Nat) : CacheDomain → Nat
  | .frontends => min capacity 32
  | .searchTexts | .searchLocalisations | .searchLocalisationReuse | .sourceOwnership => 1
  | _ => capacity

/-- The entries of a domain with another one. A full map is cleared first, and only the memos
replace the value of a key. -/
def put (capacity : Nat) (domain : CacheDomain) (entries : Entries V) (key : Str) (value : V) :
    Entries V :=
  let entries :=
    if bound capacity domain ≤ entries.size ∧ entries.contains key = false then ∅ else entries
  if domain = .sourceOwnership ∨ domain = .searchLocalisationReuse then entries.insert key value
  else entries.insertIfNew key value

/-- `insert`. -/
def insert (capacity revision : Nat) (domain : CacheDomain) (key : Str)
    (value : V) : CacheState V :=
  match state.admitInto revision domain with
  | none => state
  | some admitted =>
    { admitted with
      entries := fun other =>
        if other = domain then put capacity domain (admitted.entries domain) key value
        else admitted.entries other }

/-- `is_none_or(|current| revision > current)`. -/
def isBehind (mark : Option Nat) (revision : Nat) : Bool := mark.all fun current =>
    decide (current < revision)

def advanceIndex (revision : Nat) : CacheState V :=
  if isBehind state.indexRevision revision = true then
    { state.clear [.index, .searchTexts, .sourceOwnership] with indexRevision := some revision }
  else state

/-- `advance_definitions`. -/
def advanceDefinitions (revision : Nat) : CacheState V :=
  if isBehind state.definitionsRevision revision = true then
    { state.clear [.definitions] with definitionsRevision := some revision }
  else state

/-- `advance_documents`. -/
def advanceDocuments (revision : Nat) : CacheState V :=
  if isBehind state.documentsRevision revision = true then
    { state.clear [.documents, .frontends, .searchLocalisations] with
      documentsRevision := some revision }
  else state

/-- `advance_to`. -/
def advanceTo (revision : Nat) : CacheState V :=
  ((state.advanceIndex revision).advanceDefinitions revision).advanceDocuments revision

def advance : Advance → Nat → CacheState V
  | .advanceTo => state.advanceTo
  | .advanceDocuments => state.advanceDocuments
  | .advanceDefinitions => state.advanceDefinitions

/-- `is_superseded`. -/
def isSuperseded (domain : CacheDomain) (revision : Nat) : Bool :=
  let watermark :=
    match domain with
    | .index | .searchTexts => state.indexRevision
    | .documents | .frontends | .searchLocalisations | .searchLocalisationReuse
    | .sourceOwnership =>
      state.documentsRevision
    | .definitions => state.definitionsRevision
  watermark.any fun current => decide (revision < current)

end CacheState

/-! ## Runs -/

/-- An operation that changes the cache; lookups change nothing. -/
inductive Event (V : Type) where
  | insert (revision : Nat) (domain : CacheDomain) (key : Str) (value : V)
  | advance (call : Advance) (revision : Nat)

/-- A cache with the revisions that its hosts have reached. -/
structure System (V : Type) where
  cache : CacheState V := {}
  revisions : List Nat := [0]

/-- What an event does; `none` where there is no snapshot that could store. A host reaches a
revision by `advance_to` or by `advance_documents`. -/
def step {V : Type} (capacity : Nat) (system : System V) : Event V → Option (System V)
  | .insert revision domain key value =>
    if revision ∈ system.revisions then
      some { system with cache := system.cache.insert capacity revision domain key value }
    else none
  | .advance call revision =>
    some
      { cache := system.cache.advance call revision
        revisions :=
          if call = .advanceDefinitions then system.revisions else revision :: system.revisions }

/-- The advances that invalidate the entries of a domain. The memo of localisation files is
validated by its callers instead. -/
def Advance.invalidates : Advance → CacheDomain → Bool
  | .advanceTo, domain => domain != .searchLocalisationReuse
  | .advanceDocuments, domain =>
    domain == .documents || domain == .frontends || domain == .searchLocalisations
  | .advanceDefinitions, domain => domain == .definitions

/-- The advances that supersede the workers of a domain, as `is_superseded` has them. -/
def Advance.supersedes : Advance → CacheDomain → Bool
  | .advanceTo, _ => true
  | .advanceDocuments, domain =>
    domain == .documents || domain == .frontends || domain == .searchLocalisations ||
      domain == .searchLocalisationReuse || domain == .sourceOwnership
  | .advanceDefinitions, domain => domain == .definitions

variable {V T : Type}

/-- A store of this revision comes late: its domain has advanced past it. -/
def Late (events : List (Event V)) (revision : Nat) (domain : CacheDomain) : Prop :=
  ∃ call advanced, .advance call advanced ∈ events ∧ call.supersedes domain = true ∧
    revision < advanced

/-- An advance to a revision between two others has invalidated the domain. -/
def InvalidatedBetween (events : List (Event V)) (domain : CacheDomain) (a b : Nat) : Prop :=
  ∃ call advanced, .advance call advanced ∈ events ∧ call.invalidates domain = true ∧
    min a b < advanced ∧ advanced ≤ max a b

/-- A value was stored at the revision, and not late. -/
def Stored (events : List (Event V)) (domain : CacheDomain) (key : Str) (value : V)
    (revision : Nat) : Prop :=
  ∃ before after, events = before ++ .insert revision domain key value :: after ∧
    ¬ Late before revision domain

/-! ## Watermarks -/

/-- A watermark has come to a revision. -/
def Covers (mark : Option Nat) (revision : Nat) : Prop := ∃ current, mark = some current ∧
    revision ≤ current

theorem Covers.trans {mark : Option Nat} {a b : Nat} (h : Covers mark b)
    (hab : a ≤ b) : Covers mark a := by
  obtain ⟨current, hcurrent, hb⟩ := h
  exact ⟨current, hcurrent, hab.trans hb⟩

variable {mark : Option Nat} {revision : Nat}

theorem any_lt_iff :
    (mark.any fun current => decide (revision < current)) = true ↔ Covers mark (revision + 1) := by
  cases mark with
  | none => exact ⟨fun h => (nomatch h), fun ⟨_, h, _⟩ => (nomatch h)⟩
  | some current =>
    rw [Option.any_some, decide_eq_true_iff]
    constructor
    · intro h
      exact ⟨current, rfl, h⟩
    · rintro ⟨_, ⟨⟩, h⟩
      exact h

theorem isBehind_iff : CacheState.isBehind mark revision = true ↔ ¬ Covers mark revision := by
  cases mark with
  | none => exact iff_of_true rfl fun ⟨_, h, _⟩ => (nomatch h)
  | some current =>
    unfold CacheState.isBehind
    rw [Option.all_some, decide_eq_true_iff]
    constructor
    · rintro h ⟨_, ⟨⟩, hle⟩
      exact absurd hle (Nat.not_le.mpr h)
    · intro h
      exact Nat.not_le.mp fun hle => h ⟨current, rfl, hle⟩

namespace CacheState

variable {state : CacheState V}

theorem admitDocuments_eq_none_iff {revision : Nat} :
    state.admitDocuments revision = none ↔
      (state.documentsRevision.any fun current => decide (revision < current)) = true := by
  unfold admitDocuments
  cases state.documentsRevision with
  | none => exact iff_of_false nofun nofun
  | some current =>
    dsimp only
    rw [Option.any_some, decide_eq_true_iff]
    split_ifs with holder hnewer
    · exact iff_of_true rfl holder
    · exact iff_of_false nofun holder
    · exact iff_of_false nofun holder

theorem admitIndex_eq_none_iff {revision : Nat} :
    state.admitIndex revision = none ↔
      (state.indexRevision.any fun current => decide (revision < current)) = true := by
  unfold admitIndex
  cases state.indexRevision with
  | none => exact iff_of_false nofun nofun
  | some current =>
    dsimp only
    rw [Option.any_some, decide_eq_true_iff]
    split_ifs with holder
    · exact iff_of_true rfl holder
    · exact iff_of_false nofun holder

theorem admitDefinitions_eq_none_iff {revision : Nat} :
    state.admitDefinitions revision = none ↔
      (state.definitionsRevision.any fun current => decide (revision < current)) = true := by
  unfold admitDefinitions
  cases state.definitionsRevision with
  | none => exact iff_of_false nofun nofun
  | some current =>
    dsimp only
    rw [Option.any_some, decide_eq_true_iff]
    split_ifs with holder
    · exact iff_of_true rfl holder
    · exact iff_of_false nofun holder

/-- An insert is dropped exactly where `is_superseded` says so. -/
theorem admitInto_eq_none_iff {revision : Nat} {domain : CacheDomain} :
    state.admitInto revision domain = none ↔ state.isSuperseded domain revision = true := by
  cases domain with
  | index | searchTexts => exact admitIndex_eq_none_iff
  | documents | frontends | searchLocalisations => exact admitDocuments_eq_none_iff
  | definitions => exact admitDefinitions_eq_none_iff
  | sourceOwnership | searchLocalisationReuse =>
    unfold admitInto isSuperseded
    dsimp only
    split_ifs with hlate
    · exact iff_of_true rfl hlate
    · exact iff_of_false nofun hlate

/-- The watermarks that a value of the revision is kept under. -/
def Holds (state : CacheState V) (revision : Nat) : CacheDomain → Prop
  | .documents | .frontends | .searchLocalisations => state.documentsRevision = some revision
  | .index | .searchTexts | .sourceOwnership => ∃ current, state.indexRevision = some current ∧
      current ≤ revision
  | .definitions => ∃ current, state.definitionsRevision = some current ∧ current ≤ revision
  | .searchLocalisationReuse => True

end CacheState

theorem covers_watermark {a : Nat} :
    Covers (watermark mark revision) a ↔ Covers mark a ∨ a ≤ revision := by
  unfold watermark
  split_ifs with hbehind
  · have hnot : ¬ Covers mark revision := isBehind_iff.mp hbehind
    constructor
    · rintro ⟨_, hcurrent, h⟩
      exact .inr (Option.some.inj hcurrent ▸ h)
    · rintro (h | h)
      · refine ⟨revision, rfl, ?_⟩
        by_contra hlt
        exact hnot (h.trans (Nat.not_le.mp hlt).le)
      · exact ⟨revision, rfl, h⟩
  · refine ⟨.inl, fun h => h.elim id fun hle => ?_⟩
    exact (not_not.mp fun hnot => hbehind (isBehind_iff.mpr hnot)).trans hle

namespace CacheState

variable {state : CacheState V}

/-! ## Advances -/

theorem advanceIndex_indexRevision (revision : Nat) :
    (state.advanceIndex revision).indexRevision = watermark state.indexRevision revision := by
  unfold advanceIndex watermark isBehind
  split_ifs <;> rfl

theorem advanceIndex_documentsRevision (revision : Nat) :
    (state.advanceIndex revision).documentsRevision = state.documentsRevision := by
  unfold advanceIndex
  split_ifs <;> rfl

theorem advanceIndex_definitionsRevision (revision : Nat) :
    (state.advanceIndex revision).definitionsRevision = state.definitionsRevision := by
  unfold advanceIndex
  split_ifs <;> rfl

theorem advanceDefinitions_indexRevision (revision : Nat) :
    (state.advanceDefinitions revision).indexRevision = state.indexRevision := by
  unfold advanceDefinitions
  split_ifs <;> rfl

theorem advanceDefinitions_documentsRevision (revision : Nat) :
    (state.advanceDefinitions revision).documentsRevision = state.documentsRevision := by
  unfold advanceDefinitions
  split_ifs <;> rfl

theorem advanceDefinitions_definitionsRevision (revision : Nat) :
    (state.advanceDefinitions revision).definitionsRevision =
      watermark state.definitionsRevision revision := by
  unfold advanceDefinitions watermark isBehind
  split_ifs <;> rfl

theorem advanceDocuments_indexRevision (revision : Nat) :
    (state.advanceDocuments revision).indexRevision = state.indexRevision := by
  unfold advanceDocuments
  split_ifs <;> rfl

theorem advanceDocuments_documentsRevision (revision : Nat) :
    (state.advanceDocuments revision).documentsRevision =
      watermark state.documentsRevision revision := by
  unfold advanceDocuments watermark isBehind
  split_ifs <;> rfl

theorem advanceDocuments_definitionsRevision (revision : Nat) :
    (state.advanceDocuments revision).definitionsRevision = state.definitionsRevision := by
  unfold advanceDocuments
  split_ifs <;> rfl

/-- What another state has of the entries of this one it holds under the same watermarks. -/
def Keeps (state after : CacheState V) : Prop :=
  ∀ (domain : CacheDomain) (key : Str) (value : V), (after.entries domain)[key]? = some value →
    (state.entries domain)[key]? = some value ∧ ∀ revision, state.Holds revision domain →
      after.Holds revision domain

theorem Keeps.refl (state : CacheState V) : Keeps state state :=
  fun _ _ _ h => ⟨h, fun _ hholds => hholds⟩

theorem Keeps.trans {middle after : CacheState V} (h : Keeps state middle)
    (h' : Keeps middle after) : Keeps state after := by
  intro domain key value hvalue
  obtain ⟨hmiddle, hholds'⟩ := h' domain key value hvalue
  obtain ⟨hbefore, hholds⟩ := h domain key value hmiddle
  exact ⟨hbefore, fun revision hrevision => hholds' revision (hholds revision hrevision)⟩

/-- Watermarks may move where the domains under them are cleared. -/
theorem keeps_clear {after : CacheState V} {domains : List CacheDomain}
    (hentries : after.entries = (state.clear domains).entries)
    (hholds : ∀ domain ∉ domains, ∀ revision, state.Holds revision domain →
      after.Holds revision domain) : Keeps state after := by
  intro domain key value hvalue
  rw [hentries] at hvalue
  unfold clear at hvalue
  dsimp only at hvalue
  split_ifs at hvalue with hdomain
  · rw [Std.ExtTreeMap.getElem?_empty] at hvalue
    cases hvalue
  · exact ⟨hvalue, hholds domain hdomain⟩

theorem keeps_advanceIndex (revision : Nat) : Keeps state (state.advanceIndex revision) := by
  unfold advanceIndex
  split_ifs
  · refine keeps_clear rfl fun domain hdomain v h => ?_
    cases domain <;> first | exact h | exact absurd (by decide) hdomain
  · exact .refl state

theorem keeps_advanceDefinitions (revision : Nat) :
    Keeps state (state.advanceDefinitions revision) := by
  unfold advanceDefinitions
  split_ifs
  · refine keeps_clear rfl fun domain hdomain v h => ?_
    cases domain <;> first | exact h | exact absurd (by decide) hdomain
  · exact .refl state

theorem keeps_advanceDocuments (revision : Nat) :
    Keeps state (state.advanceDocuments revision) := by
  unfold advanceDocuments
  split_ifs
  · refine keeps_clear rfl fun domain hdomain v h => ?_
    cases domain <;> first | exact h | exact absurd (by decide) hdomain
  · exact .refl state

theorem keeps_advance (call : Advance) (revision : Nat) :
    Keeps state (state.advance call revision) := by
  cases call with
  | advanceTo =>
    exact ((keeps_advanceIndex revision).trans (keeps_advanceDefinitions revision)).trans
      (keeps_advanceDocuments revision)
  | advanceDocuments => exact keeps_advanceDocuments revision
  | advanceDefinitions => exact keeps_advanceDefinitions revision

/-! ## Inserts -/

variable {domain : CacheDomain}

theorem put_getElem? {capacity : Nat} {entries : Entries V} {key : Str} {value : V}
    {other : Str} {found : V} (h : (put capacity domain entries key value)[other]? = some found) :
    entries[other]? = some found ∨ key = other ∧ value = found := by
  have hcleared : ∀ cleared : Entries V,
      (cleared[other]? = some found → entries[other]? = some found) →
      (if domain = .sourceOwnership ∨ domain = .searchLocalisationReuse then
        cleared.insert key value
        else cleared.insertIfNew key value)[other]? = some found →
      entries[other]? = some found ∨ key = other ∧ value = found := by
    intro cleared hsub hfound
    split_ifs at hfound
    · rw [Std.ExtTreeMap.getElem?_insert] at hfound
      simp only [Std.compare_eq_iff_eq] at hfound
      split_ifs at hfound with hkey
      · exact .inr ⟨hkey, Option.some.inj hfound⟩
      · exact .inl (hsub hfound)
    · rw [Std.ExtTreeMap.getElem?_insertIfNew] at hfound
      simp only [Std.compare_eq_iff_eq] at hfound
      split_ifs at hfound with hkey
      · exact .inr ⟨hkey.1, Option.some.inj hfound⟩
      · exact .inl (hsub hfound)
  refine hcleared _ (fun hfound => ?_) h
  split_ifs at hfound
  · rw [Std.ExtTreeMap.getElem?_empty] at hfound
    cases hfound
  · exact hfound

/-- What an insert that is not dropped does before it stores. -/
structure Admitted (state admitted : CacheState V) (revision : Nat)
    (domain : CacheDomain) : Prop where
  keeps : Keeps state admitted
  holds : admitted.Holds revision domain
  index : admitted.indexRevision = state.indexRevision ∨
    state.indexRevision = none ∧ admitted.indexRevision = some revision
  documents : ∀ a, Covers state.documentsRevision a → Covers admitted.documentsRevision a
  definitions : ∀ a, Covers state.definitionsRevision a → Covers admitted.definitionsRevision a

theorem keeps_of_entries {after : CacheState V} (hentries : after.entries = state.entries)
    (hholds : ∀ domain revision, state.Holds revision domain → after.Holds revision domain) :
    Keeps state after := by
  intro domain key value hvalue
  rw [hentries] at hvalue
  exact ⟨hvalue, hholds domain⟩

variable {admitted : CacheState V} {revision : Nat}

theorem admitDocuments_holds (h : state.admitDocuments revision = some admitted)
    (hdomain : domain = .documents ∨ domain = .frontends ∨ domain = .searchLocalisations) :
    Admitted state admitted revision domain := by
  have hholds : admitted.documentsRevision = some revision → admitted.Holds revision domain := by
    rintro hmark
    rcases hdomain with rfl | rfl | rfl <;> exact hmark
  unfold admitDocuments at h
  split at h
  next hnone =>
    obtain rfl := Option.some.inj h
    refine ⟨keeps_of_entries rfl fun other v hother => ?_, hholds rfl, .inl rfl, ?_, fun _ ha => ha⟩
    · cases other <;> first | exact hother | exact absurd (hother.symm.trans hnone) nofun
    · rintro a ⟨current, hcurrent, -⟩
      exact absurd (hcurrent.symm.trans hnone) nofun
  next current hcurrent =>
    split_ifs at h with holder hnewer
    · obtain rfl := Option.some.inj h
      refine ⟨keeps_clear rfl fun other hother v hv => ?_, hholds rfl, .inl rfl, ?_, fun _ ha => ha⟩
      · cases other <;> first | exact hv | exact absurd (by decide) hother
      · rintro a ⟨known, hknown, ha⟩
        obtain rfl := Option.some.inj (hcurrent.symm.trans hknown)
        exact ⟨revision, rfl, ha.trans hnewer.le⟩
    · obtain rfl := Option.some.inj h
      have heq : current = revision := Nat.le_antisymm (Nat.not_lt.mp holder) (Nat.not_lt.mp hnewer)
      exact ⟨.refl state, hholds (heq ▸ hcurrent), .inl rfl, fun _ ha => ha, fun _ ha => ha⟩

theorem admitIndex_holds (h : state.admitIndex revision = some admitted)
    (hdomain : domain = .index ∨ domain = .searchTexts) :
    Admitted state admitted revision domain := by
  unfold admitIndex at h
  split at h
  next hnone =>
    obtain rfl := Option.some.inj h
    refine ⟨keeps_of_entries rfl fun other v hother => ?_, ?_, .inr ⟨hnone, rfl⟩, fun _ ha => ha,
      fun _ ha => ha⟩
    · cases other <;> first
        | exact hother
        | exact hother.elim fun current hcurrent => absurd (hcurrent.1.symm.trans hnone) nofun
    · rcases hdomain with rfl | rfl <;> exact ⟨revision, rfl, le_rfl⟩
  next current hcurrent =>
    split_ifs at h with holder
    obtain rfl := Option.some.inj h
    refine ⟨.refl state, ?_, .inl rfl, fun _ ha => ha, fun _ ha => ha⟩
    rcases hdomain with rfl | rfl <;> exact ⟨current, hcurrent, Nat.not_lt.mp holder⟩

theorem admitDefinitions_holds (h : state.admitDefinitions revision = some admitted) :
    Admitted state admitted revision .definitions := by
  unfold admitDefinitions at h
  split at h
  next hnone =>
    obtain rfl := Option.some.inj h
    refine ⟨keeps_of_entries rfl fun other v hother => ?_, ⟨revision, rfl, le_rfl⟩, .inl rfl,
      fun _ ha => ha, ?_⟩
    · cases other <;> first
        | exact hother
        | exact hother.elim fun current hcurrent => absurd (hcurrent.1.symm.trans hnone) nofun
    · rintro a ⟨current, hcurrent, -⟩
      exact absurd (hcurrent.symm.trans hnone) nofun
  next current hcurrent =>
    split_ifs at h with holder
    obtain rfl := Option.some.inj h
    exact ⟨.refl state, ⟨current, hcurrent, Nat.not_lt.mp holder⟩, .inl rfl, fun _ ha => ha,
      fun _ ha => ha⟩

/-- The view of the owners is checked against the watermark of the documents, and the watermark of
the index is not past that one. -/
theorem admitInto_sourceOwnership_holds
    (h : state.admitInto revision .sourceOwnership = some admitted)
    (hordered : ∀ current, state.indexRevision = some current →
      current = 0 ∨ Covers state.documentsRevision current) :
    Admitted state admitted revision .sourceOwnership := by
  unfold admitInto at h
  split_ifs at h with hlate
  obtain rfl := Option.some.inj h
  rw [any_lt_iff] at hlate
  cases hindex : state.indexRevision with
  | none =>
    refine ⟨keeps_of_entries rfl fun other v hother => ?_, ⟨revision, rfl, le_rfl⟩,
      .inr ⟨hindex, rfl⟩,
      fun _ ha => ha, fun _ ha => ha⟩
    cases other <;> first
      | exact hother
      | exact hother.elim fun current hcurrent => absurd (hcurrent.1.symm.trans hindex) nofun
  | some current =>
    have hle : current ≤ revision := by
      rcases hordered current hindex with rfl | hcovers
      · exact Nat.zero_le _
      · by_contra hlt
        exact hlate (hcovers.trans (Nat.not_le.mp hlt))
    refine ⟨keeps_of_entries rfl fun other v hother => ?_, ⟨current, rfl, hle⟩, .inl hindex.symm,
      fun _ ha => ha, fun _ ha => ha⟩
    cases other <;> first
      | exact hother
      | exact hother.elim fun known hknown => ⟨known, hindex.symm.trans hknown.1, hknown.2⟩

theorem admitInto_holds (h : state.admitInto revision domain = some admitted)
    (hordered : ∀ current, state.indexRevision = some current →
      current = 0 ∨ Covers state.documentsRevision current) :
    Admitted state admitted revision domain := by
  cases domain with
  | index => exact admitIndex_holds h (.inl rfl)
  | searchTexts => exact admitIndex_holds h (.inr rfl)
  | documents => exact admitDocuments_holds h (.inl rfl)
  | frontends => exact admitDocuments_holds h (.inr (.inl rfl))
  | searchLocalisations => exact admitDocuments_holds h (.inr (.inr rfl))
  | definitions => exact admitDefinitions_holds h
  | sourceOwnership => exact admitInto_sourceOwnership_holds h hordered
  | searchLocalisationReuse =>
    unfold admitInto at h
    split_ifs at h
    obtain rfl := Option.some.inj h
    exact ⟨.refl state, trivial, .inl rfl, fun _ ha => ha, fun _ ha => ha⟩

end CacheState

/-! ## The invariant of a run -/

/-- What holds of a system behind its events. -/
structure Inv (events : List (Event V)) (system : System V) : Prop where
  index : ∀ a, .advance .advanceTo a ∈ events → Covers system.cache.indexRevision a
  documents : ∀ call a, .advance call a ∈ events → call ≠ .advanceDefinitions →
    Covers system.cache.documentsRevision a
  definitions : ∀ call a, .advance call a ∈ events → call ≠ .advanceDocuments →
    Covers system.cache.definitionsRevision a
  reached : ∀ revision ∈ system.revisions,
    revision = 0 ∨ Covers system.cache.documentsRevision revision
  ordered : ∀ current, system.cache.indexRevision = some current →
    current = 0 ∨ Covers system.cache.documentsRevision current
  entries : ∀ (domain : CacheDomain) (key : Str) (value : V),
    (system.cache.entries domain)[key]? = some value →
      ∃ revision, Stored events domain key value revision ∧ system.cache.Holds revision domain

theorem inv_start : Inv ([] : List (Event V)) {} where
  index _ h := nomatch h
  documents _ _ h := nomatch h
  definitions _ _ h := nomatch h
  reached revision h := .inl (List.mem_singleton.mp h)
  ordered _ h := nomatch h
  entries domain key value h := by
    rw [show (({} : System V).cache.entries domain)[key]? = (∅ : Entries V)[key]? from rfl,
      Std.ExtTreeMap.getElem?_empty] at h
    cases h

theorem Stored.append {events : List (Event V)} {domain : CacheDomain} {key : Str} {value : V}
    (h : Stored events domain key value revision) (event : Event V) :
    Stored (events ++ [event]) domain key value revision := by
  obtain ⟨before, after, rfl, hlate⟩ := h
  exact ⟨before, after ++ [event], by rw [List.append_assoc, List.cons_append], hlate⟩

variable {events : List (Event V)} {system : System V}

/-- A late store is superseded. -/
theorem Inv.isSuperseded (h : Inv events system) {revision : Nat} {domain : CacheDomain}
    (hlate : Late events revision domain) : system.cache.isSuperseded domain revision = true := by
  obtain ⟨call, advanced, hmem, hsupersedes, hlt⟩ := hlate
  unfold CacheState.isSuperseded
  rw [any_lt_iff]
  refine Covers.trans ?_ hlt
  cases call with
  | advanceTo =>
    cases domain <;> first
      | exact h.index advanced hmem
      | exact h.documents _ advanced hmem nofun
      | exact h.definitions _ advanced hmem nofun
  | advanceDocuments =>
    cases domain <;> first
      | exact h.documents _ advanced hmem nofun
      | cases hsupersedes
  | advanceDefinitions =>
    cases domain <;> first
      | exact h.definitions _ advanced hmem nofun
      | cases hsupersedes

/-- A late store changes nothing. -/
theorem Inv.insert_of_late (h : Inv events system) (capacity : Nat)
    {domain : CacheDomain} (hlate : Late events revision domain) (key : Str) (value : V) :
    system.cache.insert capacity revision domain key value = system.cache := by
  unfold CacheState.insert
  rw [CacheState.admitInto_eq_none_iff.mpr (h.isSuperseded hlate)]

theorem Inv.insert (h : Inv events system) (capacity : Nat) {revision : Nat}
    (hrevision : revision ∈ system.revisions) (domain : CacheDomain) (key : Str) (value : V) :
    Inv (events ++ [.insert revision domain key value])
      { system with cache := system.cache.insert capacity revision domain key value } := by
  have hold : ∀ {call a}, .advance call a ∈ events ++ [.insert revision domain key value] →
      (.advance call a : Event V) ∈ events := by
    intro call a hmem
    exact (List.mem_append.mp hmem).resolve_right fun hlast => nomatch List.mem_singleton.mp hlast
  cases hinto : system.cache.admitInto revision domain with
  | none =>
    have hsame : system.cache.insert capacity revision domain key value = system.cache := by
      unfold CacheState.insert
      rw [hinto]
    rw [hsame]
    refine ⟨fun a hmem => h.index a (hold hmem), fun call a hmem => h.documents call a (hold hmem),
      fun call a hmem => h.definitions call a (hold hmem), h.reached, h.ordered, ?_⟩
    intro other otherKey found hfound
    obtain ⟨v, hstored, hholds⟩ := h.entries other otherKey found hfound
    exact ⟨v, hstored.append _, hholds⟩
  | some admitted =>
    have hspec := CacheState.admitInto_holds hinto h.ordered
    have hnot : ¬ Late events revision domain := by
      intro hlate
      rw [CacheState.admitInto_eq_none_iff.mpr (h.isSuperseded hlate)] at hinto
      cases hinto
    unfold CacheState.insert
    rw [hinto]
    refine ⟨fun a hmem => ?_, fun call a hmem hcall => hspec.documents a
      (h.documents call a (hold hmem) hcall),
      fun call a hmem hcall => hspec.definitions a (h.definitions call a (hold hmem) hcall), ?_, ?_,
        ?_⟩
    · obtain ⟨current, hcurrent, ha⟩ := h.index a (hold hmem)
      rcases hspec.index with hindex | ⟨hindex, -⟩
      · exact ⟨current, hindex.trans hcurrent, ha⟩
      · rw [hindex] at hcurrent
        cases hcurrent
    · intro r hr
      exact (h.reached r hr).imp_right (hspec.documents r)
    · intro current hcurrent
      rcases hspec.index with hindex | ⟨-, hindex⟩
      · exact (h.ordered current (hindex.symm.trans hcurrent)).imp_right (hspec.documents current)
      · obtain rfl := Option.some.inj (hindex.symm.trans hcurrent)
        exact (h.reached revision hrevision).imp_right (hspec.documents revision)
    · intro other otherKey found hfound
      have hkept : (admitted.entries other)[otherKey]? = some found →
          ∃ v, Stored (events ++ [.insert revision domain key value]) other otherKey found v ∧
            admitted.Holds v other := by
        intro hfound
        obtain ⟨hbefore, hholds⟩ := hspec.keeps other otherKey found hfound
        obtain ⟨v, hstored, hv⟩ := h.entries other otherKey found hbefore
        exact ⟨v, hstored.append _, hholds v hv⟩
      dsimp only at hfound
      split_ifs at hfound with hother
      · subst hother
        rcases CacheState.put_getElem? hfound with hfound | ⟨rfl, rfl⟩
        · exact hkept hfound
        · exact ⟨revision, ⟨events, [], rfl, hnot⟩, hspec.holds⟩
      · exact hkept hfound

/-- The watermarks behind an advance. -/
theorem covers_advance (state : CacheState V) (call : Advance) (revision a : Nat) :
    (Covers (state.advance call revision).indexRevision a ↔
      Covers state.indexRevision a ∨ call = .advanceTo ∧ a ≤ revision) ∧
    (Covers (state.advance call revision).documentsRevision a ↔
      Covers state.documentsRevision a ∨ call ≠ .advanceDefinitions ∧ a ≤ revision) ∧
    (Covers (state.advance call revision).definitionsRevision a ↔
      Covers state.definitionsRevision a ∨ call ≠ .advanceDocuments ∧ a ≤ revision) := by
  cases call <;>
    simp only [CacheState.advance, CacheState.advanceTo, CacheState.advanceIndex_indexRevision,
      CacheState.advanceIndex_documentsRevision, CacheState.advanceIndex_definitionsRevision,
      CacheState.advanceDefinitions_indexRevision, CacheState.advanceDefinitions_documentsRevision,
      CacheState.advanceDefinitions_definitionsRevision, CacheState.advanceDocuments_indexRevision,
      CacheState.advanceDocuments_documentsRevision,
        CacheState.advanceDocuments_definitionsRevision,
      covers_watermark, reduceCtorEq, ne_eq, not_false_eq_true, not_true_eq_false,
        true_and, false_and,
      or_false, and_self]

theorem Inv.advance (h : Inv events system) (call : Advance) (revision : Nat) :
    Inv (events ++ [.advance call revision])
      { cache := system.cache.advance call revision
        revisions :=
          if call = .advanceDefinitions then system.revisions else
            revision :: system.revisions } := by
  have hcases : ∀ {other a}, .advance other a ∈ events ++ [.advance call revision] →
      (.advance other a : Event V) ∈ events ∨ other = call ∧ a = revision := by
    intro other a hmem
    refine (List.mem_append.mp hmem).imp_right fun hlast => ?_
    cases List.mem_singleton.mp hlast
    exact ⟨rfl, rfl⟩
  have hcovers := covers_advance system.cache call revision
  refine ⟨fun a hmem => ?_, fun other a hmem hother => ?_, fun other a hmem hother => ?_,
    fun r hr => ?_, fun current hcurrent => ?_, fun domain key value hfound => ?_⟩
  · rw [(hcovers a).1]
    rcases hcases hmem with hmem | ⟨rfl, rfl⟩
    · exact .inl (h.index a hmem)
    · exact .inr ⟨rfl, le_rfl⟩
  · rw [(hcovers a).2.1]
    rcases hcases hmem with hmem | ⟨rfl, rfl⟩
    · exact .inl (h.documents other a hmem hother)
    · exact .inr ⟨hother, le_rfl⟩
  · rw [(hcovers a).2.2]
    rcases hcases hmem with hmem | ⟨rfl, rfl⟩
    · exact .inl (h.definitions other a hmem hother)
    · exact .inr ⟨hother, le_rfl⟩
  · dsimp only at hr ⊢
    rw [(hcovers r).2.1]
    split_ifs at hr with hcall
    · exact (h.reached r hr).imp_right .inl
    · rcases List.mem_cons.mp hr with rfl | hr
      · exact .inr (.inr ⟨hcall, le_rfl⟩)
      · exact (h.reached r hr).imp_right .inl
  · -- the watermark of the index is the old one or the revision of `advance_to`
    dsimp only at hcurrent ⊢
    rw [(hcovers current).2.1]
    rcases ((hcovers current).1.mp ⟨current, hcurrent, le_rfl⟩) with
      ⟨known, hknown, hle⟩ | ⟨rfl, hle⟩
    · rcases h.ordered known hknown with rfl | hcovered
      · exact .inl (Nat.le_zero.mp hle)
      · exact .inr (.inl (hcovered.trans hle))
    · exact .inr (.inr ⟨nofun, hle⟩)
  · obtain ⟨hbefore, hholds⟩ := CacheState.keeps_advance call revision domain key value hfound
    obtain ⟨v, hstored, hv⟩ := h.entries domain key value hbefore
    exact ⟨v, hstored.append _, hholds v hv⟩

theorem Inv.step {capacity : Nat} (h : Inv events system) {event : Event V} {next : System V}
    (hstep : step capacity system event = some next) : Inv (events ++ [event]) next := by
  cases event with
  | insert revision domain key value =>
    unfold QueryCache.step at hstep
    dsimp only at hstep
    split_ifs at hstep with hrevision
    obtain rfl := Option.some.inj hstep
    exact h.insert capacity hrevision domain key value
  | advance call revision =>
    obtain rfl := Option.some.inj hstep
    exact h.advance call revision

theorem Inv.run {capacity : Nat} {later : List (Event V)} {last : System V} (h : Inv events system)
    (hrun : Trace.run (QueryCache.step capacity) later system = some last) :
    Inv (events ++ later) last := by
  induction later generalizing events system with
  | nil =>
    obtain rfl := Option.some.inj hrun
    rw [List.append_nil]
    exact h
  | cons event later ih =>
    obtain ⟨next, hstep, hrun⟩ := Option.bind_eq_some_iff.mp hrun
    have hrest := ih (h.step hstep) hrun
    rwa [List.append_assoc, List.singleton_append] at hrest

/-- What holds of a system behind a run. -/
theorem inv_run {capacity : Nat} {last : System V}
    (hrun : Trace.run (step capacity) events ({} : System V) = some last) : Inv events last := by
  have h := (inv_start (V := V)).run hrun
  rwa [List.nil_append] at h

/-! ## Lookups -/

/-- A revision past neither of two others is not between them. -/
theorem not_between_of_covers {a v : Nat} (hcovers : Covers mark a)
    (hv : ∃ current, mark = some current ∧ current ≤ v)
    (hrevision : (mark.any fun current => decide (current ≤ revision)) = true) :
    ¬ min v revision < a := by
  obtain ⟨current, rfl, hv⟩ := hv
  obtain ⟨_, ⟨⟩, ha⟩ := hcovers
  exact Nat.not_lt.mpr (le_min (ha.trans hv) (ha.trans (of_decide_eq_true hrevision)))

/-- No advance between the revision of a value and the reader it answers has invalidated it. -/
theorem Inv.not_invalidatedBetween (h : Inv events system) {domain : CacheDomain} {v : Nat}
    (hholds : system.cache.Holds v domain)
    (hanswers : system.cache.answers revision domain = true) :
    ¬ InvalidatedBetween events domain v revision := by
  rintro ⟨call, advanced, hmem, hinvalidates, hmin, hmax⟩
  cases domain with
  | documents | frontends | searchLocalisations =>
    -- the reader is of the very revision of the value
    have hsame : v = revision := Option.some.inj (hholds.symm.trans (eq_of_beq hanswers))
    rw [hsame, min_self] at hmin
    rw [hsame, max_self] at hmax
    exact absurd hmax (Nat.not_le.mpr hmin)
  | index | searchTexts | sourceOwnership =>
    cases call with
    | advanceTo => exact not_between_of_covers (h.index advanced hmem) hholds hanswers hmin
    | advanceDocuments | advanceDefinitions => cases hinvalidates
  | definitions =>
    cases call with
    | advanceTo | advanceDefinitions =>
      exact not_between_of_covers (h.definitions _ advanced hmem nofun) hholds hanswers hmin
    | advanceDocuments => cases hinvalidates
  | searchLocalisationReuse => cases call <;> cases hinvalidates

/-- A value that is found is the entry of a domain that answers. -/
theorem CacheState.get_eq_some {state : CacheState V} {downcast : V → Option T} {key : Str}
    {found : T} (h : state.get downcast revision key = some found) :
    ∃ (domain : CacheDomain) (value : V), state.answers revision domain = true ∧
      (state.entries domain)[key]? = some value ∧ downcast value = some found := by
  obtain ⟨value, hvalue, hfound⟩ := Option.bind_eq_some_iff.mp h
  obtain ⟨domain, -, hdomain⟩ := List.exists_of_findSome?_eq_some hvalue
  split_ifs at hdomain with hanswers
  exact ⟨domain, value, hanswers, hdomain, hfound⟩

/-- What a lookup finds was stored in time, and nothing between its revision and the reader has
invalidated it. -/
theorem Inv.get (h : Inv events system) {downcast : V → Option T} {revision : Nat}
    {key : Str} {found : T} (hget : system.cache.get downcast revision key = some found) :
    ∃ (domain : CacheDomain) (value : V) (v : Nat), Stored events domain key value v ∧
      downcast value = some found ∧ ¬ InvalidatedBetween events domain v revision := by
  obtain ⟨domain, value, hanswers, hvalue, hfound⟩ := CacheState.get_eq_some hget
  obtain ⟨v, hstored, hholds⟩ := h.entries domain key value hvalue
  exact ⟨domain, value, v, hstored, hfound, h.not_invalidatedBetween hholds hanswers⟩

/-- Whatever the order of stores, lookups and advances, a lookup finds a value that was stored in
time and that no advance between its revision and that of the reader has invalidated, and a late
store changes nothing. -/
theorem get_fresh {capacity : Nat} {events : List (Event V)} {last : System V}
    (hrun : Trace.run (step capacity) events ({} : System V) = some last) :
    (∀ (T : Type) (downcast : V → Option T) (revision : Nat) (key : Str) (found : T),
      last.cache.get downcast revision key = some found →
        ∃ (domain : CacheDomain) (value : V) (v : Nat), Stored events domain key value v ∧
          downcast value = some found ∧ ¬ InvalidatedBetween events domain v revision) ∧
    ∀ (revision : Nat) (domain : CacheDomain) (key : Str) (value : V), Late events revision domain →
      last.cache.insert capacity revision domain key value = last.cache := by
  have hinv := inv_run hrun
  constructor
  · intro T downcast revision key found hget
    exact hinv.get hget
  · intro revision domain key value hlate
    exact hinv.insert_of_late capacity hlate key value

/-- A view of the index and one of the documents, with an edit behind them. -/
def editedEvents : List (Event Nat) :=
  [.advance .advanceTo 1, .insert 1 .index "view".toList 7, .insert 1 .documents "text".toList 9,
    .advance .advanceDocuments 2]

def edited : System Nat where
  cache := (((({} : CacheState Nat).advanceTo 1).insert 8 1 .index "view".toList 7).insert
    8 1 .documents "text".toList 9).advanceDocuments 2
  revisions := [2, 1, 0]

/-- The view of the index survives the edit, that of the documents does not. -/
theorem get_fresh_edited : edited.cache.get some 2 "text".toList = none ∧
    (∃ (domain : CacheDomain) (value v : Nat), Stored editedEvents domain "view".toList value v ∧
      some value = some 7 ∧ ¬ InvalidatedBetween editedEvents domain v 2) ∧
    edited.cache.insert 8 1 .documents "text".toList 9 = edited.cache := by
  have hrun : Trace.run (step 8) editedEvents {} = some edited := rfl
  have hlate : Late editedEvents 1 .documents :=
    ⟨.advanceDocuments, 2, List.mem_of_getLast? rfl, rfl, Nat.one_lt_two⟩
  refine ⟨by decide +kernel, (get_fresh hrun).1 Nat some 2 "view".toList 7 (by decide +kernel), ?_⟩
  exact (get_fresh hrun).2 1 .documents _ _ hlate

end ParadoxCode.Workspace.QueryCache
