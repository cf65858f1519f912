import ParadoxCode.Hir.Template
import ParadoxCode.Rules.ScopeModel

/-!
# Scope transitions

`transition_state` of `ir_lowering.rs`: the scope registers inside a block, from its key and the
scope effect of its field.

A dotted key that is a chain of links and registers is gone through by its segments; then the whole
key is tried as a register and as a link once more. So the segments alone decide exactly when the
whole key is neither (`transitionState_chain_iff`).
-/

namespace ParadoxCode.Hir

open Rules

/-- What the transitions read of `RulesIr`. -/
structure ScopeRules where
  strings : Interner
  scopes : ScopeModel
  deriving DecidableEq

/-- The scope effect of a field. -/
structure ScopeEffect where
  push : Option Symbol
  set : List (Symbol × Symbol)
  deriving DecidableEq

namespace ScopeRules

variable (ir : ScopeRules)

/-- `ir.scopes.register`. -/
def register (key : Str) : Option (RegisterInfo × Nat) := ir.scopes.register ir.strings key

/-- `ir_scope_register_value`. -/
def registerValue (state : ScopeState) (key : Str) : Option ScopeValue :=
  match ir.register key with
  | none => none
  | some (register, depth) =>
    match register.role with
    | .root => some state.root
    | .current => state.current.head?
    | .previous => state.previous[depth - 1]?
    | .from => state.from'[depth - 1]?

/-- `link_from_matches`. -/
def linkFromMatches (link : LinkInfo) (current : Option ScopeValue) : Bool :=
  match current with
  | none | some .unknown => true
  | some .invalid => link.from.isEmpty
  | some (.known names) =>
    link.from.isEmpty ||
      link.from.any fun «from» =>
        match «from» with
        | .any => true
        | .type expected =>
          names.any fun known =>
            (ir.strings.lookupFolded known).any fun actual =>
              ir.scopes.compatible ir.strings actual expected

end ScopeRules

/-- A scope is entered: the one before becomes the nearest previous one. -/
def ScopeState.enter (state : ScopeState) (scope : ScopeValue) : ScopeState :=
  { state with
    previous := state.current.head?.getD .unknown :: state.previous
    current := scope :: state.current }

/-- `set_register`. -/
def setRegister (registers : List ScopeValue) (index : Nat) (value : ScopeValue) :
    List ScopeValue :=
  (registers ++ List.replicate (index + 1 - registers.length) ScopeValue.unknown).set index value

/-- What a key does as a register. -/
def enterRegister (ir : ScopeRules) (state : ScopeState) (key : Str) : ScopeState :=
  match ir.register key with
  | none => state
  | some (register, _) =>
    if register.role = .current then state
    else state.enter ((ir.registerValue state key).getD .unknown)

/-- The scope that a link lands in. -/
def landing (ir : ScopeRules) (link : LinkInfo) : ScopeValue :=
  match link.to with
  | .any => .unknown
  | .type scope => .knownSingle (ir.strings.resolve scope)

/-- The first link that the key spells and that may start from the current scope. -/
def startingLink (ir : ScopeRules) (state : ScopeState) (key : Str) : Option LinkInfo :=
  ir.scopes.links.find? fun link =>
    templateKeyMatches link.pattern key && ir.linkFromMatches link state.current.head?

/-- What a key does as a link. -/
def enterLink (ir : ScopeRules) (state : ScopeState) (key : Str) : ScopeState :=
  match startingLink ir state key with
  | none => state
  | some link => state.enter (landing ir link)

/-- One register that an effect replaces. -/
def replaceRegister (ir : ScopeRules) (state : ScopeState) (entry : Symbol × Symbol) : ScopeState :=
  let value := ScopeValue.knownSingle (ir.strings.resolve entry.2)
  match ir.register (ir.strings.resolve entry.1) with
  | none => state
  | some (register, depth) =>
    match register.role with
    | .root => { state with root := value }
    | .current => { state with current := setRegister state.current 0 value }
    | .previous => { state with previous := setRegister state.previous (depth - 1) value }
    | .from => { state with from' := setRegister state.from' (depth - 1) value }

def applyEffect (ir : ScopeRules) (state : ScopeState) (effect : Option ScopeEffect) : ScopeState :=
  match effect with
  | none => state
  | some effect =>
    let state := (effect.push.map fun push => state.enter
      (.knownSingle (ir.strings.resolve push))).getD state
    effect.set.foldl (replaceRegister ir) state

/-- `transition_state` for a key that is not gone through by its segments. -/
def transitionKey (ir : ScopeRules) (state : ScopeState) (effect : Option ScopeEffect)
    (key : Str) : ScopeState :=
  applyEffect ir (enterLink ir (enterRegister ir state key) key) effect

/-- The key is a chain of links and registers. -/
def IsChain (ir : ScopeRules) (key : Str) : Prop :=
  '.' ∈ key ∧ ir.scopes.linkOrRegisterMatches ir.strings key = true

instance (ir : ScopeRules) (key : Str) : Decidable (IsChain ir key) :=
  inferInstanceAs (Decidable (_ ∧ _))

/-- `transition_state`. The segments have no dots, so that the calls for them go no further
(`transitionState_eq`). -/
def transitionState (ir : ScopeRules) (state : ScopeState) (effect : Option ScopeEffect)
    (key : Str) : ScopeState :=
  let state :=
    if IsChain ir key then
      (key.splitOn '.').foldl (fun state segment => transitionKey ir state none segment) state
    else state
  transitionKey ir state effect key

/-- The segments of a key from left to right, as `scope_validation` goes through them. -/
def transitionSegments (ir : ScopeRules) (state : ScopeState) (key : Str) : ScopeState :=
  (key.splitOn '.').foldl (fun state segment => transitionState ir state none segment) state

/-! ## Segments -/

theorem not_mem_of_mem_splitOn {separator : Char} {key segment : Str}
    (h : segment ∈ key.splitOn separator) : separator ∉ segment := by
  rw [List.splitOn_eq_splitOnP] at h
  induction key generalizing segment with
  | nil =>
    rw [List.splitOnP_nil, List.mem_singleton] at h
    exact h ▸ List.not_mem_nil
  | cons c key ih =>
    rw [List.splitOnP_cons_eq_if_modifyHead] at h
    split_ifs at h with hc
    · rcases List.mem_cons.mp h with rfl | hrest
      · exact List.not_mem_nil
      · exact ih hrest
    · -- the character goes in front of the first segment of the rest
      cases hsplit : key.splitOnP (· == separator) with
      | nil => exact absurd hsplit (List.splitOnP_ne_nil _ _)
      | cons first others =>
        rw [hsplit] at h ih
        rw [List.modifyHead_cons] at h
        rcases List.mem_cons.mp h with rfl | hother
        · rw [List.mem_cons, not_or]
          exact ⟨fun heq => hc (beq_iff_eq.mpr heq.symm), ih List.mem_cons_self⟩
        · exact ih (List.mem_cons_of_mem _ hother)

/-- A key without dots is not gone through by segments. -/
theorem transitionState_segment {segment : Str} (h : '.' ∉ segment) (ir : ScopeRules)
    (state : ScopeState)
    (effect : Option ScopeEffect) : transitionState ir state effect segment =
      transitionKey ir state effect segment := by
  unfold transitionState
  rw [if_neg fun hchain => h hchain.1]

theorem transitionSegments_eq (ir : ScopeRules) (state : ScopeState) (key : Str) :
    transitionSegments ir state key =
      (key.splitOn '.').foldl (fun state segment => transitionKey ir state none segment) state :=
  List.foldl_ext _ _ _ fun state _ hsegment =>
    transitionState_segment (not_mem_of_mem_splitOn hsegment) ir state none

/-- The recursion of the source. -/
theorem transitionState_eq (ir : ScopeRules) (state : ScopeState)
    (effect : Option ScopeEffect) (key : Str) :
    transitionState ir state effect key =
      transitionKey ir (if IsChain ir key then transitionSegments ir state key else state)
        effect key := by
  rw [transitionSegments_eq]
  rfl

/-! ## The whole key -/

theorem current_enter (state : ScopeState) (scope : ScopeValue) :
    (state.enter scope).current = scope :: state.current := rfl

/-- A register leaves the current scope as it is exactly when it leaves everything as it is. -/
theorem enterRegister_cases (ir : ScopeRules) (state : ScopeState) (key : Str) :
    ((∀ entry ∈ ir.register key, entry.1.role = .current) ∧ enterRegister ir state key = state) ∨
      (¬ (∀ entry ∈ ir.register key, entry.1.role = .current) ∧
        ∃ scope, enterRegister ir state key = state.enter scope) := by
  unfold enterRegister
  cases ir.register key with
  | none => exact .inl ⟨fun entry hentry => (nomatch hentry), rfl⟩
  | some entry =>
    by_cases hrole : entry.1.role = .current
    · exact .inl ⟨fun other hother => by rwa [← Option.some.inj hother], if_pos hrole⟩
    · exact .inr ⟨fun hall => hrole (hall entry rfl), _, if_neg hrole⟩

theorem enterLink_cases (ir : ScopeRules) (state : ScopeState) (key : Str) :
    (startingLink ir state key = none ∧ enterLink ir state key = state) ∨
      (startingLink ir state key ≠ none ∧ ∃ scope, enterLink ir state key = state.enter scope) := by
  unfold enterLink
  cases startingLink ir state key with
  | none => exact .inl ⟨rfl, rfl⟩
  | some link => exact .inr ⟨by simp, _, rfl⟩

theorem ne_enter (state : ScopeState) (scope : ScopeValue) : state.enter scope ≠ state := by
  intro h
  have hlength := congrArg (fun state => state.current.length) h
  simp [current_enter] at hlength

theorem ne_enter_enter (state : ScopeState) (outer inner : ScopeValue) :
    (state.enter outer).enter inner ≠ state := by
  intro h
  have hlength := congrArg (fun state => state.current.length) h
  simp only [current_enter, List.length_cons] at hlength
  omega

/-- A key changes nothing exactly when it is no register but the current scope, and no link that may
start there. -/
theorem transitionKey_eq_self_iff (ir : ScopeRules) (state : ScopeState) (key : Str) :
    transitionKey ir state none key = state ↔
      (∀ entry ∈ ir.register key, entry.1.role = .current) ∧ startingLink ir state key = none := by
  unfold transitionKey applyEffect
  rcases enterRegister_cases ir state key with ⟨hregister, heq⟩ | ⟨hregister, scope, heq⟩
  · rw [heq]
    rcases enterLink_cases ir state key with ⟨hlink, hstate⟩ | ⟨hlink, inner, hstate⟩
    · exact iff_of_true hstate ⟨hregister, hlink⟩
    · exact iff_of_false (hstate ▸ ne_enter state inner) fun h => hlink h.2
  · rw [heq]
    refine iff_of_false (fun h => ?_) fun h => hregister h.1
    rcases enterLink_cases ir (state.enter scope) key with ⟨-, hstate⟩ | ⟨-, inner, hstate⟩
    · exact ne_enter state scope (hstate.symm.trans h)
    · exact ne_enter_enter state scope inner (hstate.symm.trans h)

/-- A chain moves the scope by its segments exactly when the whole key, where they lead, is no
register but the current scope and no link that may start there. -/
theorem transitionState_chain_iff (ir : ScopeRules) (state : ScopeState) (key : Str)
    (h : IsChain ir key) :
    transitionState ir state none key = transitionSegments ir state key ↔
      (∀ entry ∈ ir.register key, entry.1.role = .current) ∧
        ∀ link ∈ ir.scopes.links, templateKeyMatches link.pattern key →
          ir.linkFromMatches link (transitionSegments ir state key).current.head? = false := by
  rw [transitionState_eq, if_pos h, transitionKey_eq_self_iff]
  refine and_congr_right fun _ => ?_
  unfold startingLink
  rw [List.find?_eq_none]
  refine forall₂_congr fun link _ => ?_
  rw [Bool.and_eq_true, not_and, Bool.not_eq_true]

/-- A target of an event from anywhere to anywhere, and the owner of a province. -/
def targetRules : ScopeRules where
  strings := ⟨["province".toList, "country".toList]⟩
  scopes :=
    { types := [0, 1]
      registers := []
      links :=
        [⟨[.text "event_target:".toList, .hole 0], [.any], .any⟩,
          ⟨[.text "owner".toList], [.type 0], .type 1⟩]
      compat := [] }

/-- At the root in a province. -/
def provinceState : ScopeState :=
  ⟨.knownSingle "province".toList, [.knownSingle "province".toList], [], []⟩

theorem transitionState_chain_owner :
    IsChain targetRules "owner.owner".toList ∧
      (transitionState targetRules provinceState none "owner.owner".toList =
          transitionSegments targetRules provinceState "owner.owner".toList ↔
        (∀ entry ∈ targetRules.register "owner.owner".toList, entry.1.role = .current) ∧
          ∀ link ∈ targetRules.scopes.links, templateKeyMatches link.pattern "owner.owner".toList →
            targetRules.linkFromMatches link
              (transitionSegments targetRules provinceState "owner.owner".toList).current.head? =
                false) :=
  ⟨by decide +kernel, transitionState_chain_iff _ _ _ (by decide +kernel)⟩

/-- The hole of the target takes the other segment in, too: behind it the scope is the target's
again. -/
theorem transitionState_chain_target :
    ¬ ∀ (ir : ScopeRules) (state : ScopeState) (key : Str), IsChain ir key →
      transitionState ir state none key = transitionSegments ir state key := by
  intro h
  have hkey := h targetRules provinceState "event_target:ally.owner".toList (by decide +kernel)
  revert hkey
  decide +kernel

end ParadoxCode.Hir
