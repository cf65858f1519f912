import ParadoxCode.Ide.Resolution
import ParadoxCode.Lib.Dedup

/-!
# Merging diagnostics

`DiagnosticCollector::finish` of `diagnostics.rs`: the diagnostics are sorted, and of neighbours
with one code, range and message the first one stays. The callback moves what belongs to the one
that stays into the one that goes. Finishing loses nothing where diagnostics of one identity stand
together and are bare.
-/

namespace ParadoxCode.Ide

open StableSort (sortByKey)

/-! ## Diagnostics -/

inductive DiagnosticCode where
  | syntaxError
  | analysisIncomplete
  | unknownKey
  | unknownLocalisationKey
  | ambiguousDefinition
  | invalidValue
  | unknownTexturePath
  | cardinality
  | wrongScope
  | dynamicDefinitionCycle
  | invalidDependency
  | logicalContainer
  | constantCondition
  | missingLimit
  | emptyBlock
  | orphanElse
  | emptyScopeContract
  | modifierScopeMismatch
  | localisationNotTranscoded
  | localisationMixedEncoding
  | localisationEscapeRefused
  | localisationUnencodableCodePoint
  | localisationBrokenEscapeSequence
  | scriptLegacyEscapeVariant
  deriving DecidableEq

inductive Severity where
  | error
  | warning
  | information
  | hint
  deriving DecidableEq

inductive DiagnosticCertainty where
  | certain
  | contextual
  | inferred
  | unresolved
  deriving DecidableEq

inductive DiagnosticTag where
  | unnecessary
  | deprecated
  deriving DecidableEq

structure DiagnosticProvenance where
  ruleId : Option Str
  context : Option Str
  sourceFile : Option Str
  sourceLine : Option Nat
  sourcePointer : Option Str
  deriving DecidableEq

structure QuickFix where
  title : Str
  range : TextRange
  newText : Str
  preferred : Bool
  deriving DecidableEq

structure RelatedLocation where
  location : Location
  message : Str
  deriving DecidableEq

structure Diagnostic where
  code : DiagnosticCode
  severity : Severity
  range : TextRange
  message : Str
  certainty : DiagnosticCertainty := .certain
  notes : List Str := []
  expected : Option Str := none
  related : List RelatedLocation := []
  tags : List DiagnosticTag := []
  provenance : Option DiagnosticProvenance := none
  fixes : List QuickFix := []
  deriving DecidableEq

structure Identity where
  code : DiagnosticCode
  range : TextRange
  message : Str
  deriving DecidableEq

namespace Diagnostic

/-- What the diagnostics are sorted by. -/
def sortKey (diagnostic : Diagnostic) : Nat ×ₗ Nat ×ₗ Nat ×ₗ Nat :=
  toLex (diagnostic.range.start, toLex (diagnostic.range.stop,
    toLex (diagnostic.code.ctorIdx, diagnostic.severity.ctorIdx)))

/-- What two diagnostics are merged by. -/
def identity (diagnostic : Diagnostic) : Identity :=
  ⟨diagnostic.code, diagnostic.range, diagnostic.message⟩

/-- The diagnostic without what merging moves. -/
def emptied (diagnostic : Diagnostic) : Diagnostic :=
  { diagnostic with fixes := [], related := [], notes := [] }

/-- Nothing that merging moves. -/
structure Bare (diagnostic : Diagnostic) : Prop where
  fixes : diagnostic.fixes = []
  related : diagnostic.related = []
  notes : diagnostic.notes = []

end Diagnostic

/-! ## Finishing -/

/-- `drain` of one list, with the items that the other one does not hold pushed to it. -/
def drainInto {α : Type} [DecidableEq α] (target drained : List α) : List α :=
  drained.foldl (fun target item => if item ∈ target then target else target ++ [item]) target

/-- The callback of `finish`: whether the two are merged, and both as it leaves them. -/
def sameBucket (left right : Diagnostic) : Bool × Diagnostic × Diagnostic :=
  if left.code = right.code ∧ left.range = right.range ∧ left.message = right.message then
    (true,
      { left with
        fixes := drainInto left.fixes right.fixes
        related := drainInto left.related right.related
        notes := left.notes ++ right.notes },
      right.emptied)
  else (false, left, right)

/-- `Vec::dedup_by` behind an element that stays: the callback gets the later element first, and
that one goes when it answers `true`. -/
def dedupBehind {α : Type} (sameBucket : α → α → Bool × α × α) (kept : α) : List α → List α
  | [] => [kept]
  | later :: rest =>
    match sameBucket later kept with
    | (true, _, kept) => dedupBehind sameBucket kept rest
    | (false, later, kept) => kept :: dedupBehind sameBucket later rest

def dedupBy {α : Type} (sameBucket : α → α → Bool × α × α) : List α → List α
  | [] => []
  | first :: rest => dedupBehind sameBucket first rest

/-- `DiagnosticCollector::finish`. -/
def finish (values : List Diagnostic) : List Diagnostic :=
  dedupBy sameBucket (sortByKey Diagnostic.sortKey values)

/-- No diagnostic is in front of one that starts earlier, or ends earlier from the same start. -/
def InRangeOrder (values : List Diagnostic) : Prop := values.Pairwise fun a b =>
  a.range.start < b.range.start ∨ a.range.start = b.range.start ∧ a.range.stop ≤ b.range.stop

/-- The diagnostics of an identity, in the order of `finish`. -/
def group (values : List Diagnostic) (identity : Identity) : List Diagnostic :=
  (sortByKey Diagnostic.sortKey values).filter fun value => value.identity = identity

/-- Nothing is lost: one diagnostic for each identity, with what all diagnostics of this identity
carry. -/
structure Lossless (values : List Diagnostic) : Prop where
  identities : ∀ diagnostic ∈ finish values, diagnostic.identity ∈ values.map Diagnostic.identity
  once : ∀ value ∈ values, ((finish values).map Diagnostic.identity).count value.identity = 1
  inOrder : InRangeOrder (finish values)
  fixes : ∀ diagnostic ∈ finish values, ∀ fix,
    fix ∈ diagnostic.fixes ↔ ∃ value ∈ values, value.identity = diagnostic.identity ∧
    fix ∈ value.fixes
  related : ∀ diagnostic ∈ finish values, ∀ location,
    location ∈ diagnostic.related ↔ ∃ value ∈ values, value.identity = diagnostic.identity ∧
    location ∈ value.related
  notes : ∀ diagnostic ∈ finish values, ∃ merged : List Diagnostic,
    merged.Perm (values.filter fun value => value.identity = diagnostic.identity) ∧
      diagnostic.notes = merged.flatMap Diagnostic.notes

/-! ## What is returned -/

section

variable {kept later first : Diagnostic} {rest values sorted : List Diagnostic}
  {identity : Identity}

@[simp] theorem Diagnostic.identity_emptied (diagnostic : Diagnostic) :
    diagnostic.emptied.identity = diagnostic.identity := rfl

theorem Diagnostic.bare_emptied (diagnostic : Diagnostic) : diagnostic.emptied.Bare :=
  ⟨rfl, rfl, rfl⟩

theorem dedupBehind_same (h : later.identity = kept.identity) :
    dedupBehind sameBucket kept (later :: rest) = dedupBehind sameBucket kept.emptied rest := by
  simp only [Diagnostic.identity, Identity.mk.injEq] at h
  have hbucket : sameBucket later kept = (true, _, kept.emptied) := if_pos h
  rw [dedupBehind, hbucket]

theorem dedupBehind_other (h : later.identity ≠ kept.identity) :
    dedupBehind sameBucket kept (later :: rest) = kept :: dedupBehind sameBucket later rest := by
  simp only [Diagnostic.identity, ne_eq, Identity.mk.injEq] at h
  have hbucket : sameBucket later kept = (false, later, kept) := if_neg h
  rw [dedupBehind, hbucket]

/-- The identities are compared with their neighbours. -/
theorem map_identity_dedupBehind : (dedupBehind sameBucket kept rest).map Diagnostic.identity =
    (rest.map Diagnostic.identity).destutter' (· ≠ ·) kept.identity := by
  induction rest generalizing kept with
  | nil => rfl
  | cons later rest ih =>
    rw [List.map_cons]
    by_cases h : later.identity = kept.identity
    · rw [dedupBehind_same h, ih, List.destutter'_cons_neg _ (by simpa using h.symm)]
      rfl
    · rw [dedupBehind_other h, List.map_cons, ih, List.destutter'_cons_pos _ (Ne.symm h)]

theorem map_identity_dedupBy : (dedupBy sameBucket sorted).map Diagnostic.identity =
    (sorted.map Diagnostic.identity).destutter (· ≠ ·) := by
  cases sorted with
  | nil => rfl
  | cons first rest => exact map_identity_dedupBehind

/-- What stays keeps its place in the order. -/
theorem map_sortKey_dedupBehind :
    ((dedupBehind sameBucket kept rest).map Diagnostic.sortKey).Sublist
    ((kept :: rest).map Diagnostic.sortKey) := by
  induction rest generalizing kept with
  | nil => exact List.Sublist.refl _
  | cons later rest ih =>
    by_cases h : later.identity = kept.identity
    · rw [dedupBehind_same h]
      exact ih.trans ((List.sublist_cons_self _ _).cons_cons _)
    · rw [dedupBehind_other h, List.map_cons]
      exact ih.cons_cons _

/-- What stays of an identity that stands together: the only diagnostic of it, or a bare one. -/
theorem kept_of_together (h : Dedup.Together identity ((kept :: rest).map Diagnostic.identity))
    {diagnostic : Diagnostic} (hmem : diagnostic ∈ dedupBehind sameBucket kept rest)
    (hidentity : diagnostic.identity = identity) :
    (diagnostic.Bare ∧ 2 ≤ ((kept :: rest).filter fun value => value.identity = identity).length) ∨
      ((kept :: rest).filter fun value => value.identity = identity) = [diagnostic] := by
  induction rest generalizing kept with
  | nil =>
    obtain rfl := List.mem_singleton.mp hmem
    exact .inr (by simp [hidentity])
  | cons later rest ih =>
    by_cases hsame : later.identity = kept.identity
    · rw [dedupBehind_same hsame] at hmem
      rw [List.map_cons, List.map_cons, hsame, Dedup.together_cons_cons_self] at h
      have hrest := @ih kept.emptied h hmem
      by_cases hkept : kept.identity = identity
      · simp only [List.filter_cons, Diagnostic.identity_emptied, hkept, hsame, decide_true,
          if_true, List.length_cons] at hrest ⊢
        left
        rcases hrest with ⟨hbare, hlength⟩ | hone
        · exact ⟨hbare, by omega⟩
        · obtain ⟨rfl, -⟩ := List.cons.inj hone
          exact ⟨kept.bare_emptied, by omega⟩
      · rw [List.filter_cons_of_neg (by rwa [decide_eq_true_eq,
          Diagnostic.identity_emptied])] at hrest
        rw [List.filter_cons_of_neg (by rwa [decide_eq_true_eq]),
          List.filter_cons_of_neg (by rwa [decide_eq_true_eq, hsame])]
        exact hrest
    · rw [dedupBehind_other hsame, List.mem_cons] at hmem
      rw [List.map_cons, List.map_cons] at h
      by_cases hkept : kept.identity = identity
      · -- the identity of the first one does not come again
        subst hkept
        have hnot := (Dedup.together_cons_cons_of_ne (Ne.symm hsame)).mp h
        rcases hmem with rfl | hmem
        · right
          rw [List.filter_cons_of_pos (by simp), List.filter_eq_nil_iff.mpr
            fun value hvalue hequal => ?_]
          exact hnot (of_decide_eq_true hequal ▸ List.mem_map_of_mem
            (f := Diagnostic.identity) hvalue)
        · have hin := List.mem_map_of_mem (f := Diagnostic.identity) hmem
          rw [map_identity_dedupBehind, Dedup.mem_destutter'_ne, hidentity] at hin
          exact absurd hin hnot
      · rcases hmem with rfl | hmem
        · exact absurd hidentity hkept
        · rw [List.filter_cons_of_neg (by rwa [decide_eq_true_eq])]
          exact ih ((Dedup.together_cons_of_ne hkept).mp h) hmem

theorem kept_of_finish
    (h : Dedup.Together identity ((sortByKey Diagnostic.sortKey values).map Diagnostic.identity))
    {diagnostic : Diagnostic} (hmem : diagnostic ∈ finish values)
    (hidentity : diagnostic.identity = identity) :
    (diagnostic.Bare ∧ 2 ≤ (group values identity).length) ∨
    group values identity = [diagnostic] := by
  unfold finish at hmem
  unfold group
  cases hsorted : sortByKey Diagnostic.sortKey values with
  | nil =>
    rw [hsorted] at hmem
    exact absurd hmem List.not_mem_nil
  | cons first rest =>
    rw [hsorted] at hmem h
    exact kept_of_together h hmem hidentity

theorem sortKey_le_iff {a b : Diagnostic} : a.sortKey ≤ b.sortKey ↔
    a.range.start < b.range.start ∨ a.range.start = b.range.start ∧
      (a.range.stop < b.range.stop ∨ a.range.stop = b.range.stop ∧
        (a.code.ctorIdx < b.code.ctorIdx ∨ a.code.ctorIdx = b.code.ctorIdx ∧
          a.severity.ctorIdx ≤ b.severity.ctorIdx)) := by
  simp only [Diagnostic.sortKey, Prod.Lex.toLex_le_toLex]

theorem finish_inOrder (values : List Diagnostic) : InRangeOrder (finish values) := by
  have hsorted := StableSort.pairwise_sortByKey Diagnostic.sortKey values
  rw [← List.pairwise_map (R := (· ≤ ·))] at hsorted
  have hkeys : (finish values).Pairwise fun a b => a.sortKey ≤ b.sortKey := by
    rw [← List.pairwise_map (R := (· ≤ ·))]
    unfold finish
    cases hvalues : sortByKey Diagnostic.sortKey values with
    | nil => exact List.Pairwise.nil
    | cons first rest =>
      rw [hvalues] at hsorted
      exact hsorted.sublist map_sortKey_dedupBehind
  refine hkeys.imp fun {a b} hle => ?_
  have := sortKey_le_iff.mp hle
  omega

theorem mem_map_identity_finish : identity ∈ (finish values).map Diagnostic.identity ↔
    identity ∈ values.map Diagnostic.identity := by
  unfold finish
  rw [map_identity_dedupBy, Dedup.mem_destutter_ne]
  exact ((StableSort.perm_sortByKey _ values).map _).mem_iff

/-- Each identity comes once exactly if its diagnostics stand together. -/
theorem count_finish : ((finish values).map Diagnostic.identity).count identity = 1 ↔
    identity ∈ values.map Diagnostic.identity ∧
      Dedup.Together identity ((sortByKey Diagnostic.sortKey values).map Diagnostic.identity) := by
  unfold finish
  rw [map_identity_dedupBy, Dedup.count_destutter_eq_one,
    ((StableSort.perm_sortByKey _ values).map _).mem_iff]

end

/-! ## What stands together -/

/-- Of two given diagnostics of one range and code, the graver one stands before the other, and of
one severity the first one. -/
def StandsBefore (values : List Diagnostic) (p q : Fin values.length) : Prop :=
  values[p].severity.ctorIdx < values[q].severity.ctorIdx ∨
    values[p].severity = values[q].severity ∧ p < q

/-- Between two given diagnostics of one identity stands none of their range and code with another
message. -/
def Unmixed (values : List Diagnostic) : Prop := ∀ p q r : Fin values.length,
  values[p].identity = values[r].identity → values[q].range = values[p].range →
    values[q].code = values[p].code → StandsBefore values p q → StandsBefore values q r →
    values[q].message = values[p].message

theorem Severity.ctorIdx_inj {a b : Severity} : a.ctorIdx = b.ctorIdx ↔ a = b :=
  (Function.LeftInverse.injective Severity.ofNat_ctorIdx).eq_iff

theorem DiagnosticCode.ctorIdx_inj {a b : DiagnosticCode} : a.ctorIdx = b.ctorIdx ↔ a = b :=
  (Function.LeftInverse.injective DiagnosticCode.ofNat_ctorIdx).eq_iff

variable {values : List Diagnostic}

theorem before_iff_standsBefore {p q : Fin values.length}
    (hrange : values[q].range = values[p].range) (hcode : values[q].code = values[p].code) :
    StableSort.Before Diagnostic.sortKey values p q ↔ StandsBefore values p q := by
  unfold StableSort.Before StandsBefore Diagnostic.sortKey
  rw [hrange, hcode]
  simp only [Prod.Lex.toLex_lt_toLex, lt_irrefl, false_or, true_and, EmbeddingLike.apply_eq_iff_eq,
    Prod.mk.injEq, Severity.ctorIdx_inj]

/-- What is between two keys of one range and code has them too. -/
theorem between {a b c : Diagnostic} (hab : a.sortKey ≤ b.sortKey) (hbc : b.sortKey ≤ c.sortKey)
    (hac : a.identity = c.identity) : b.range = a.range ∧ b.code = a.code := by
  simp only [Diagnostic.identity, Identity.mk.injEq] at hac
  obtain ⟨hcode, hrange, -⟩ := hac
  rw [sortKey_le_iff] at hab hbc
  rw [← hcode, ← hrange] at hbc
  have hstart : b.range.start = a.range.start := by omega
  have hstop : b.range.stop = a.range.stop := by omega
  refine ⟨?_, DiagnosticCode.ctorIdx_inj.mp (by omega)⟩
  rwa [TextRange.mk.injEq b.range.start b.range.stop b.range.le a.range.start, and_iff_right hstart]

/-- The sorted diagnostics of each identity stand together if and only if the given ones are
unmixed. -/
theorem together_iff_unmixed :
    (∀ identity, Dedup.Together identity
      ((sortByKey Diagnostic.sortKey values).map Diagnostic.identity)) ↔
      Unmixed values := by
  constructor
  · intro h p q r hpr hrange hcode hpq hqr
    have hrange' : values[r].range = values[q].range := hrange ▸ (congrArg Identity.range hpr).symm
    have hcode' : values[r].code = values[q].code := hcode ▸ (congrArg Identity.code hpr).symm
    have hpq := (before_iff_standsBefore hrange hcode).mpr hpq
    have hqr := (before_iff_standsBefore hrange' hcode').mpr hqr
    have hsub : [values[p], values[q], values[r]].Sublist
      (sortByKey Diagnostic.sortKey values) := by
      refine StableSort.sublist_sortByKey.mpr ⟨[p, q, r], ?_, rfl⟩
      simp [hpq, hqr, hpq.trans hqr]
    have hmap := hsub.map Diagnostic.identity
    rw [List.map_cons, List.map_cons, List.map_cons, ← hpr] at hmap
    exact congrArg Identity.message (h _ _ hmap)
  · intro h identity other hsub
    obtain ⟨part, hpart, hidentities⟩ := List.sublist_map_iff.mp hsub
    obtain ⟨positions, hpositions, rfl⟩ := StableSort.sublist_sortByKey.mp hpart
    obtain ⟨p, q, r, rfl⟩ : ∃ p q r, positions = [p, q, r] := by
      rw [← List.length_eq_three]
      simpa using (congrArg List.length hidentities).symm
    simp only [List.map_cons, List.map_nil, List.cons.injEq, and_true,
      List.get_eq_getElem] at hidentities
    obtain ⟨hp, hq, hr⟩ := hidentities
    have hsorted := (StableSort.pairwise_sortByKey Diagnostic.sortKey values).sublist hpart
    simp only [List.map_cons, List.map_nil, List.pairwise_cons, List.mem_cons,
      List.not_mem_nil, or_false, forall_eq_or_imp, forall_eq] at hsorted hpositions
    have hpr : values[p].identity = values[r].identity := hp.symm.trans hr
    obtain ⟨hrange, hcode⟩ := between hsorted.1.1 hsorted.2.1 hpr
    have hrange' : values[r].range = values[q].range := hrange ▸ (congrArg Identity.range hpr).symm
    have hcode' : values[r].code = values[q].code := hcode ▸ (congrArg Identity.code hpr).symm
    have hmessage := h p q r hpr hrange hcode
      ((before_iff_standsBefore hrange hcode).mp hpositions.1.1)
      ((before_iff_standsBefore hrange' hcode').mp hpositions.2.1)
    rw [hp, hq]
    exact (Identity.mk.injEq _ _ _ _ _ _).mpr ⟨hcode, hrange, hmessage⟩

/-! ## When nothing is lost -/

/-- Of two diagnostics with one identity neither carries anything. -/
def BareTogether (values : List Diagnostic) : Prop :=
  values.Pairwise fun a b => a.identity = b.identity → a.Bare ∧ b.Bare

theorem bare_of_two (h : BareTogether values) {identity : Identity}
    (hall : ∀ value ∈ values, value.identity = identity) (htwo : 2 ≤ values.length) :
    ∀ value ∈ values, value.Bare := by
  match values, htwo with
  | a :: b :: rest, _ =>
    have hfirst := (List.pairwise_cons.mp h).1
    have hsame : ∀ value ∈ b :: rest, a.identity = value.identity := fun value hvalue =>
      (hall a List.mem_cons_self).trans (hall value (List.mem_cons_of_mem a hvalue)).symm
    intro value hvalue
    rcases List.mem_cons.mp hvalue with rfl | hvalue
    · exact (hfirst b List.mem_cons_self (hsame b List.mem_cons_self)).1
    · exact (hfirst value hvalue (hsame value hvalue)).2

theorem mem_group {identity : Identity} {value : Diagnostic} :
    value ∈ group values identity ↔ value ∈ values ∧ value.identity = identity := by
  unfold group
  rw [List.mem_filter, (StableSort.perm_sortByKey _ values).mem_iff, decide_eq_true_eq]

/-- What stays carries what its group carries. -/
theorem field_eq_flatMap {diagnostic : Diagnostic} {α : Type} (field : Diagnostic → List α)
    (hfield : ∀ value : Diagnostic, value.Bare → field value = [])
    (htogether : Dedup.Together diagnostic.identity
      ((sortByKey Diagnostic.sortKey values).map Diagnostic.identity))
    (hbare : BareTogether values) (hmem : diagnostic ∈ finish values) :
    field diagnostic = (group values diagnostic.identity).flatMap field := by
  rcases kept_of_finish htogether hmem rfl with ⟨hempty, htwo⟩ | hone
  · have hperm := StableSort.perm_sortByKey Diagnostic.sortKey values
    have hsorted : BareTogether (sortByKey Diagnostic.sortKey values) :=
      (hperm.pairwise_iff fun h hidentity => (h hidentity.symm).symm).mpr hbare
    have hgroup : BareTogether (group values diagnostic.identity) :=
      hsorted.sublist List.filter_sublist
    have hall := bare_of_two hgroup (fun value hvalue => (mem_group.mp hvalue).2) htwo
    rw [hfield _ hempty, List.flatMap_eq_nil_iff.mpr fun value hvalue =>
      hfield value (hall value hvalue)]
  · rw [hone, List.flatMap_singleton]

/-- What is under one identity twice is bare where nothing is lost. -/
theorem Lossless.bare (h : Lossless values) {diagnostic value : Diagnostic}
    (hmem : diagnostic ∈ finish values) (hempty : diagnostic.Bare) (hvalue : value ∈ values)
    (hidentity : value.identity = diagnostic.identity) : value.Bare where
  fixes := List.eq_nil_iff_forall_not_mem.mpr fun fix hfix => by
    have hkept := (h.fixes diagnostic hmem fix).mpr ⟨value, hvalue, hidentity, hfix⟩
    rw [hempty.fixes] at hkept
    exact List.not_mem_nil hkept
  related := List.eq_nil_iff_forall_not_mem.mpr fun location hlocation => by
    have hkept := (h.related diagnostic hmem location).mpr ⟨value, hvalue, hidentity, hlocation⟩
    rw [hempty.related] at hkept
    exact List.not_mem_nil hkept
  notes := by
    obtain ⟨merged, hperm, hnotes⟩ := h.notes diagnostic hmem
    rw [hempty.notes] at hnotes
    refine List.flatMap_eq_nil_iff.mp hnotes.symm value (hperm.mem_iff.mpr ?_)
    exact List.mem_filter.mpr ⟨hvalue, decide_eq_true hidentity⟩

/-- **Finishing loses nothing** exactly if no diagnostic with another message stands between two of
one identity, and no two diagnostics of one identity carry fixes, related locations or notes. -/
theorem finish_lossless_iff (values : List Diagnostic) : Lossless values ↔ Unmixed values ∧
    BareTogether values := by
  rw [← together_iff_unmixed]
  constructor
  · intro h
    have htogether : ∀ identity, Dedup.Together identity
        ((sortByKey Diagnostic.sortKey values).map Diagnostic.identity) := by
      intro identity
      by_cases hmem : identity ∈ values.map Diagnostic.identity
      · obtain ⟨value, hvalue, rfl⟩ := List.mem_map.mp hmem
        exact (count_finish.mp (h.once value hvalue)).2
      · intro other hsub
        have hin := ((StableSort.perm_sortByKey _ values).map _).mem_iff.mp
          (hsub.subset List.mem_cons_self)
        exact absurd hin hmem
    -- what stays of two diagnostics holds nothing, and it would have to hold what both carry
    refine ⟨htogether, List.pairwise_iff_forall_sublist.mpr fun {a b} hsub hidentity => ?_⟩
    have ha := hsub.subset List.mem_cons_self
    have hb := hsub.subset (List.mem_cons_of_mem a List.mem_cons_self)
    obtain ⟨diagnostic, hmem, hkept⟩ := List.mem_map.mp
      (mem_map_identity_finish.mpr (List.mem_map_of_mem (f := Diagnostic.identity) ha))
    have hlength : 2 ≤ (group values a.identity).length := by
      unfold group
      rw [((StableSort.perm_sortByKey _ values).filter _).length_eq]
      have hpair := hsub.filter fun value => value.identity = a.identity
      simp only [List.filter_cons, List.filter_nil, hidentity, decide_true, if_true] at hpair
      rw [hidentity]
      exact hpair.length_le
    rcases kept_of_finish (htogether a.identity) hmem hkept with ⟨hempty, -⟩ | hone
    · exact ⟨h.bare hmem hempty ha hkept.symm, h.bare hmem hempty hb
        (hidentity.symm.trans hkept.symm)⟩
    · rw [hone, List.length_singleton] at hlength
      omega
  · rintro ⟨htogether, hbare⟩
    have hcarries : ∀ diagnostic ∈ finish values, ∀ {α : Type} (field : Diagnostic → List α),
        (∀ value : Diagnostic, value.Bare → field value = []) →
          field diagnostic = (group values diagnostic.identity).flatMap field :=
      fun diagnostic hmem _ field hfield => field_eq_flatMap field hfield (htogether _) hbare hmem
    exact {
      identities := fun diagnostic hmem => mem_map_identity_finish.mp (List.mem_map_of_mem hmem)
      once := fun value hvalue => count_finish.mpr ⟨List.mem_map_of_mem hvalue, htogether _⟩
      inOrder := finish_inOrder values
      fixes := fun diagnostic hmem fix => by
        rw [hcarries diagnostic hmem Diagnostic.fixes fun value hvalue => hvalue.fixes,
          List.mem_flatMap]
        simp only [mem_group, and_assoc]
      related := fun diagnostic hmem location => by
        rw [hcarries diagnostic hmem Diagnostic.related fun value hvalue => hvalue.related,
          List.mem_flatMap]
        simp only [mem_group, and_assoc]
      notes := fun diagnostic hmem => ⟨group values diagnostic.identity,
        (StableSort.perm_sortByKey Diagnostic.sortKey values).filter _,
        hcarries diagnostic hmem Diagnostic.notes fun value hvalue => hvalue.notes⟩ }

/-- A diagnostic with a note. -/
def noted (note : Str) : Diagnostic :=
  { code := .wrongScope, severity := .error, range := .sized 0 3, message := "wrong scope".toList,
    notes := [note] }

/-- The notes of two diagnostics of one identity are lost. -/
theorem not_lossless_noted : ¬∀ values, Lossless values := by
  intro h
  have hmem : (noted "first".toList).emptied ∈ finish [noted "first".toList,
    noted "second".toList] := by
    decide +kernel
  have hbare := (h _).bare hmem (Diagnostic.bare_emptied _) List.mem_cons_self rfl
  exact absurd hbare.notes (List.cons_ne_nil _ _)

end ParadoxCode.Ide
