import ParadoxCode.Hir.Template
import ParadoxCode.Workspace.OverlayFacts

/-!
# Names of references

A matcher of references may strip a prefix: a script writes the name without it, and the definition
has it. The validator (`scalar_primitive` of `checking.rs`), lowering (`reference_symbol_name` and
`matcher_accepts_key` of `ir_lowering.rs`) and the rules themselves (`scalar_primitive_outcome` of
`ir.rs`) decide each on their own what a value denotes.
-/

namespace ParadoxCode.Hir.References

open Format (eqIgnoreAsciiCase)
open Engine.Store (DefinitionAttributes)
open Workspace (HirDefinition)

/-! ## Three deciders -/

/-- The rules, as far as references are decided by them. -/
structure RulesIr where
  resolve : Nat → Str
  typeName : TypeId → Nat

structure SymbolFacts where
  typeMember : TypeId → Str → Bool
  typeSubtypeMember : TypeId → Nat → Str → Bool
  factsComplete : Bool

/-- `RefTarget::Type`. -/
structure RefTarget where
  typeId : TypeId
  subtype : Option Nat
  stripPrefix : Option Nat

/-- What lowering has found in the file so far. -/
structure IrFacts where
  definitions : List HirDefinition
  definitionAttributes : List DefinitionAttributes

/-- `value.get(..prefix.len())` is the prefix, but for case. -/
def startsWithPrefix (ir : RulesIr) (value : Str) (stripped : Nat) : Bool :=
  (getText value 0 (byteLen (ir.resolve stripped))).any fun head =>
    eqIgnoreAsciiCase head (ir.resolve stripped)

def member (facts : SymbolFacts) (target : RefTarget) (candidate : Str) : Bool :=
  match target.subtype with
  | none => facts.typeMember target.typeId candidate
  | some subtype => facts.typeSubtypeMember target.typeId subtype candidate

/-- A rejection by facts that are not complete is no answer. -/
def outcome (facts : SymbolFacts) (result : Bool) : Option Bool :=
  if result = false ∧ facts.factsComplete = false then none else some result

/-- `scalar_primitive` of the validator. -/
def validate (ir : RulesIr) (target : RefTarget) (value : Str) (facts : SymbolFacts) :
    Option Bool :=
  if target.stripPrefix.any (startsWithPrefix ir value) = true then some false
  else outcome facts (member facts target value ||
    target.stripPrefix.any fun stripped => member facts target (ir.resolve stripped ++ value))

/-- The value with the prefix that the matcher strips. -/
def restored (ir : RulesIr) (target : RefTarget) (value : Str) : Str :=
  match target.stripPrefix with
  | some stripped => ir.resolve stripped ++ value
  | none => value

/-- `scalar_primitive_outcome` of the rules. -/
def scalarPrimitiveOutcome (ir : RulesIr) (target : RefTarget) (value : Str) (facts : SymbolFacts) :
    Option Bool :=
  outcome facts (member facts target (restored ir target value))

/-- The name that lowering records. -/
def referenceSymbolName (ir : RulesIr) (value : Str) : Option Nat → Option Str
  | none => some value
  | some stripped => if startsWithPrefix ir value stripped = true then none else
      some (ir.resolve stripped ++ value)

/-- The file defines the name. -/
def isLocal (ir : RulesIr) (target : RefTarget) (out : IrFacts) (key : Str) : Bool :=
  out.definitions.any fun definition =>
    eqIgnoreAsciiCase definition.kind (ir.resolve (ir.typeName target.typeId)) &&
      eqIgnoreAsciiCase definition.name key

/-- A definition of that name, of any kind, has the subtype. -/
def provesSubtype (ir : RulesIr) (target : RefTarget) (out : IrFacts) (key : Str) : Bool :=
  target.subtype.all fun required => out.definitionAttributes.any fun attributes =>
    eqIgnoreAsciiCase attributes.name key && attributes.subtypes.any fun name =>
      eqIgnoreAsciiCase name (ir.resolve required)

/-- `matcher_accepts_key` of lowering. -/
def matcherAcceptsKey (ir : RulesIr) (target : RefTarget) (value : Str) (facts : Option SymbolFacts)
    (out : IrFacts) : Bool :=
  match referenceSymbolName ir value target.stripPrefix with
  | none => false
  | some key =>
    if isLocal ir target out key = true then provesSubtype ir target out key
    else facts.any fun facts => member facts target key

/-! ## When they agree -/

variable {ir : RulesIr} {target : RefTarget} {facts : SymbolFacts} {out : IrFacts} {value : Str}

/-- What is accepted is recorded under a name that exists, and the three deciders give one
answer. -/
structure Agree (ir : RulesIr) (target : RefTarget) (facts : SymbolFacts) (out : IrFacts)
    (value : Str) : Prop where
  recorded : validate ir target value facts = some true ↔
    ∃ name, referenceSymbolName ir value target.stripPrefix = some name ∧
    member facts target name = true
  lowered : matcherAcceptsKey ir target value (some facts) out = true ↔
    validate ir target value facts = some true
  ruled : scalarPrimitiveOutcome ir target value facts = some true ↔
    validate ir target value facts = some true

/-- Where a value that has the prefix is no name behind another one, and a name without the prefix
is one with it too, as the definitions of the file have it. -/
structure Denotes (ir : RulesIr) (target : RefTarget) (facts : SymbolFacts) (out : IrFacts)
    (value : Str) : Prop where
  doubled : target.stripPrefix.any (startsWithPrefix ir value) = true →
    member facts target (restored ir target value) = false
  bare : target.stripPrefix.any (startsWithPrefix ir value) = false →
    member facts target value = true → member facts target (restored ir target value) = true
  isLocal : target.stripPrefix.any (startsWithPrefix ir value) = false →
    isLocal ir target out (restored ir target value) = true →
      provesSubtype ir target out (restored ir target value) =
        member facts target (restored ir target value)

/-- A value that has the prefix already is no reference. -/
theorem referenceSymbolName_eq : referenceSymbolName ir value target.stripPrefix =
    if target.stripPrefix.any (startsWithPrefix ir value) = true then none else
      some (restored ir target value) := by
  unfold restored
  cases target.stripPrefix <;> rfl

theorem outcome_eq_some_true {result : Bool} : outcome facts result = some true ↔
    result = true := by
  unfold outcome
  split_ifs with h
  · rw [h.1]
    exact iff_of_false (fun h => nomatch h) Bool.false_ne_true
  · rw [Option.some.injEq]

theorem scalarPrimitiveOutcome_iff : scalarPrimitiveOutcome ir target value facts = some true ↔
    member facts target (restored ir target value) = true :=
  outcome_eq_some_true

theorem validate_iff : validate ir target value facts = some true ↔
    target.stripPrefix.any (startsWithPrefix ir value) = false ∧
      (member facts target value = true ∨ member facts target (restored ir target value) =
        true) := by
  have hmember : (member facts target value || target.stripPrefix.any fun stripped =>
      member facts target (ir.resolve stripped ++ value)) = true ↔
        member facts target value = true ∨ member facts target (restored ir target value) =
          true := by
    unfold restored
    rw [Bool.or_eq_true]
    cases target.stripPrefix with
    | none => simp
    | some stripped => rfl
  unfold validate
  split_ifs with hprefixed
  · exact iff_of_false (by simp) fun h => by simp [hprefixed] at h
  · rw [outcome_eq_some_true, hmember, and_iff_right (Bool.eq_false_iff.mpr hprefixed)]

theorem matcherAcceptsKey_iff : matcherAcceptsKey ir target value (some facts) out = true ↔
    target.stripPrefix.any (startsWithPrefix ir value) = false ∧
      (if isLocal ir target out (restored ir target value) = true then
          provesSubtype ir target out (restored ir target value)
        else member facts target (restored ir target value)) = true := by
  unfold matcherAcceptsKey
  rw [referenceSymbolName_eq]
  by_cases hprefixed : target.stripPrefix.any (startsWithPrefix ir value) = true
  · rw [if_pos hprefixed]
    exact iff_of_false Bool.false_ne_true fun h => by simp [hprefixed] at h
  · rw [if_neg hprefixed, and_iff_right (Bool.eq_false_iff.mpr hprefixed)]
    rfl

theorem recorded_iff : (∃ name, referenceSymbolName ir value target.stripPrefix = some name ∧
      member facts target name = true) ↔
    target.stripPrefix.any (startsWithPrefix ir value) = false ∧
      member facts target (restored ir target value) = true := by
  rw [referenceSymbolName_eq]
  split_ifs with hprefixed
  · exact iff_of_false (fun ⟨_, h, _⟩ => nomatch h) fun h => by simp [hprefixed] at h
  · rw [and_iff_right (Bool.eq_false_iff.mpr hprefixed)]
    exact ⟨fun ⟨_, h, hmember⟩ => by rwa [Option.some.inj h], fun hmember => ⟨_, rfl, hmember⟩⟩

/-- **An accepted reference is recorded under a name that exists**, and the three deciders agree,
exactly where the value denotes its name. -/
theorem agree_iff (ir : RulesIr) (target : RefTarget) (facts : SymbolFacts) (out : IrFacts)
    (value : Str) : Agree ir target facts out value ↔ Denotes ir target facts out value := by
  constructor
  · rintro ⟨hrecorded, hlowered, hruled⟩
    rw [validate_iff, recorded_iff] at hrecorded
    rw [matcherAcceptsKey_iff, validate_iff] at hlowered
    rw [scalarPrimitiveOutcome_iff, validate_iff] at hruled
    refine ⟨fun hprefixed => ?_, fun hbare hmember => ?_, fun hbare hlocal => ?_⟩
    · rw [Bool.eq_false_iff]
      intro hmember
      exact absurd (hruled.mp hmember).1 (by rw [hprefixed]; decide)
    · exact (hrecorded.mp ⟨hbare, .inl hmember⟩).2
    · rw [if_pos hlocal] at hlowered
      rw [Bool.eq_iff_iff]
      exact ⟨fun h => hruled.mpr (hlowered.mp ⟨hbare, h⟩), fun h => (hlowered.mpr (hruled.mp h)).2⟩
  · rintro ⟨hdoubled, hbare, hlocal⟩
    refine ⟨?_, ?_, ?_⟩
    · rw [validate_iff, recorded_iff]
      exact ⟨fun ⟨h, hmember⟩ => ⟨h, hmember.elim (hbare h) id⟩,
        fun ⟨h, hmember⟩ => ⟨h, .inr hmember⟩⟩
    · rw [matcherAcceptsKey_iff, validate_iff]
      refine and_congr_right fun h => ?_
      have hfacts : (member facts target value = true ∨
        member facts target (restored ir target value) = true) ↔
          member facts target (restored ir target value) = true := or_iff_right_of_imp (hbare h)
      rw [hfacts]
      split_ifs with hdefined
      · rw [hlocal h hdefined]
      · rfl
    · rw [scalarPrimitiveOutcome_iff, validate_iff]
      constructor
      · intro hmember
        refine ⟨?_, .inr hmember⟩
        rw [Bool.eq_false_iff]
        intro hprefixed
        rw [hdoubled hprefixed] at hmember
        exact Bool.false_ne_true hmember
      · rintro ⟨h, hmember⟩
        exact hmember.elim (hbare h) id

/-- A type has a member `x`, and the matcher strips `mod_`. -/
def bareFacts : SymbolFacts := ⟨fun _ name => name == ['x'], fun _ _ _ => false, true⟩

/-- The value `x` is accepted, and `mod_x`, which is no member, is recorded for it. -/
theorem not_agree_bare : ¬∀ (ir : RulesIr) (target : RefTarget) (facts : SymbolFacts)
    (out : IrFacts) (value : Str),
    facts.factsComplete = true → Agree ir target facts out value := by
  intro h
  have hrecorded := (h ⟨fun _ => "mod_".toList, fun _ => 1⟩ ⟨0, none, some 0⟩ bareFacts ⟨[], []⟩
    ['x'] rfl).recorded
  have hvalid : validate ⟨fun _ => "mod_".toList, fun _ => 1⟩ ⟨0, none, some 0⟩ ['x'] bareFacts =
    some true := by
    decide +kernel
  obtain ⟨name, hname, hmember⟩ := hrecorded.mp hvalid
  have hspelled : referenceSymbolName ⟨fun _ => "mod_".toList, fun _ => 1⟩ ['x'] (some 0) =
    some "mod_x".toList := by
    decide +kernel
  rw [show name = "mod_x".toList from Option.some.inj (hname.symm.trans hspelled)] at hmember
  exact absurd hmember (by decide +kernel)

end ParadoxCode.Hir.References
