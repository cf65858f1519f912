import ParadoxCode.Format.Paths

/-!
# Constant conditions

`constant_control_value` and `control_lints` of `checking.rs`: which containers of conditions, and
which guards of branches, are always true or always false.
-/

namespace ParadoxCode.Hir.Conditions

open Format (eqIgnoreAsciiCase)

/-! ## Conditions -/

inductive ControlKind where
  | branch
  | branchContinue
  | guard
  | logic
  | weighted
  | chance
  | switch
  | transparent
  | displayOnly
  | constant
  deriving DecidableEq

/-- `Control`, as far as conditions are read by it. -/
structure Control where
  kind : ControlKind
  guard : Option Str
  op : Option Str
  deriving DecidableEq

/-- The controls of the fields that a property may stand for: those that have one agree. -/
structure Fields where
  controls : List (Option Control)
  agree : ∀ left ∈ controls, ∀ right ∈ controls, left ≠ none → right ≠ none → left = right

/-- A property, with the properties right under it. -/
inductive Condition where
  | property (key : Str) (range : TextRange) (scalar : Option Str) (fields : Fields)
      (children : List Condition)

namespace Condition

def key : Condition → Str
  | property key .. => key

def range : Condition → TextRange
  | property _ range .. => range

def scalar : Condition → Option Str
  | property _ _ scalar .. => scalar

def fields : Condition → Fields
  | property _ _ _ fields _ => fields

def children : Condition → List Condition
  | property _ _ _ _ children => children

/-- The first control of the fields: `find_map`. -/
def control (condition : Condition) : Option Control := condition.fields.controls.findSome? id

/-- The control of the first field. -/
def firstControl (condition : Condition) : Option Control := condition.fields.controls.head?.join

def isConstant (condition : Condition) : Bool :=
  condition.fields.controls.any fun control => control.any fun control => control.kind == .constant

end Condition

/-- What a constant's value says. -/
def parseConstant (value : Str) : Option Bool :=
  if eqIgnoreAsciiCase value "yes".toList = true then some true
  else if eqIgnoreAsciiCase value "no".toList = true then some false
  else none

def isContainer (kind : ControlKind) : Bool := kind == .logic || kind == .guard

def isOr (op : Str) : Bool := eqIgnoreAsciiCase op "or".toList || eqIgnoreAsciiCase op "nor".toList

def isNegated (op : Str) : Bool := eqIgnoreAsciiCase op "not".toList ||
    eqIgnoreAsciiCase op "nor".toList

def hasOp (op : Option Str) (name : String) : Bool := op.any fun op =>
    eqIgnoreAsciiCase op name.toList

/-- What the conditions of a container make of it: one of them for `OR`, none of them for `NOT` and
`NOR`, all of them otherwise. -/
def reading (op : Option Str) (values : List Bool) : Bool :=
  if hasOp op "or" = true then values.any id
  else if hasOp op "not" = true ∨ hasOp op "nor" = true then !values.any id
  else values.all id

mutual

/-- The documented value of a condition. -/
def holds (truth : Condition → Bool) : Condition → Bool
  | .property key range scalar fields children =>
    let condition := Condition.property key range scalar fields children
    match condition.control with
    | some control =>
      if control.kind = .constant then (scalar.bind parseConstant).getD (truth condition)
      else if isContainer control.kind = true then reading control.op (holdsEach truth children)
      else truth condition
    | none => truth condition

def holdsEach (truth : Condition → Bool) : List Condition → List Bool
  | [] => []
  | child :: rest => holds truth child :: holdsEach truth rest

end

/-! ## Two evaluators -/

/-- The operator that a container is evaluated by. -/
def operator (control : Control) : Str := control.op.getD "and".toList

/-- The values of the children of a container, as far as they are known. -/
def combine (or : Bool) (values : List (Option Bool)) : Option Bool :=
  if or = true ∧ some true ∈ values then some true
  else if or = false ∧ some false ∈ values then some false
  else (values.mapM id).map fun values => if or = true then values.any id else values.all id

/-- `evaluate` of `constant_control_value`, with the levels that are left above the limit. -/
def evaluate : Nat → Condition → Option Bool
  | 0, _ => none
  | levels + 1, condition =>
    match condition.control with
    | none => none
    | some control =>
      if control.kind = .constant then condition.scalar.bind parseConstant
      else if isContainer control.kind = false then none
      else if condition.children.isEmpty = true then none
      else
        let op := operator control
        (combine (isOr op) (condition.children.map (evaluate levels))).map fun value =>
          if isNegated op = true then !value else value

def constantControlValue (property : Condition) : Option Bool := evaluate 64 property

/-- What `control_lints` says of a logic container or a branch. -/
inductive ControlLint where
  | multipleNot
  | emptyContainer (value : Bool)
  | singleCondition
  | constantContainer (value : Bool)
  | constantGuard (guard : Condition) (guardName : Str) (value : Bool)
  | missingLimit (guardName : Str)
  | emptyBlock

/-- What a child that is a constant says. -/
def constantOf (child : Condition) : Option Bool :=
  if child.isConstant = true then
    child.scalar.bind fun value =>
      let value := toAsciiLowercase value
      if value = "yes".toList ∨ value = "no".toList then some (value == "yes".toList) else none
  else none

def constantContainerValue (op : Option Str) (children : List Condition) : Option Bool :=
  let constants := children.filterMap constantOf
  if hasOp op "and" = true ∧ false ∈ constants then some false
  else if hasOp op "or" = true ∧ true ∈ constants then some true
  else if hasOp op "not" = true ∧ constants.length = children.length ∧ constants ≠ [] then
    some (constants.all not)
  else none

def logicLints (control : Control) (property : Condition) : List ControlLint :=
  let children := property.children
  let op := control.op
  let invalidCount := if hasOp op "not" = true then children.length ≠ 1 else children.isEmpty = true
  (if invalidCount then
    [if hasOp op "not" = true then .multipleNot else .emptyContainer (!hasOp op "or")] else []) ++
  (if children.length = 1 ∧ (hasOp op "or" = true ∨ hasOp op "and" = true) then
    [.singleCondition] else []) ++
  ((constantContainerValue op children).map .constantContainer).toList

def branchLints (control : Control) (property : Condition) : List ControlLint :=
  match control.guard with
  | none => []
  | some guardName =>
    let guard := property.children.find? fun child => eqIgnoreAsciiCase child.key guardName
    (guard.bind fun guard => (constantControlValue guard).map
      (.constantGuard guard guardName)).toList ++
    (if guard.isNone = true then [.missingLimit guardName] else []) ++
    (if property.children.isEmpty = true then [.emptyBlock] else [])

/-- `control_lints` at one property, for what it has to say about logic and branches. Properties
below a tooltip or on a hole of a template are passed over. -/
def controlLints (passedOver : TextRange → Bool) (property : Condition) : List ControlLint :=
  if passedOver property.range = true then []
  else
    match property.firstControl with
    | none => []
    | some control =>
      if control.kind = .logic then logicLints control property
      else if control.kind = .branch ∨ control.kind = .branchContinue then
        branchLints control property
      else []

/-! ## Verdicts -/

/-- The condition that a lint on the property declares constant, and the value. -/
def ControlLint.declares (property : Condition) : ControlLint → Option (Condition × Bool)
  | emptyContainer value => some (property, value)
  | constantContainer value => some (property, value)
  | constantGuard guard _ value => some (guard, value)
  | _ => none

/-- The condition has the value for every truth of the conditions that are no constants. -/
def Always (condition : Condition) (value : Bool) : Prop := ∀ truth, holds truth condition = value

/-- The condition is part of the tree. -/
inductive Part (tree : Condition) : Condition → Prop
  | self : Part tree tree
  | child {condition child : Condition} : Part tree condition → child ∈ condition.children →
      Part tree child

/-- What is declared at a property is so, and the two evaluators do not contradict each other. -/
structure Right (passedOver : TextRange → Bool) (property : Condition) : Prop where
  evaluated : ∀ value, constantControlValue property = some value → Always property value
  linted : ∀ lint ∈ controlLints passedOver property, ∀ condition value,
    lint.declares property = some (condition, value) → Always condition value
  consistent : ∀ lint ∈ controlLints passedOver property, ∀ value declared,
    constantControlValue property = some value → lint.declares property =
      some (property, declared) → declared = value

/-- Every verdict on a part of the tree is right. -/
def Sound (passedOver : TextRange → Bool) (tree : Condition) : Prop := ∀ property,
    Part tree property → Right passedOver property

/-! ## Inference -/

/-- What the constants below a condition decide, through so many levels. -/
inductive Inferred : Nat → Condition → Bool → Prop
  | constant {levels : Nat} {condition : Condition} {control : Control} {value : Bool} :
    condition.control = some control → control.kind = .constant →
    condition.scalar.bind parseConstant = some value → Inferred (levels + 1) condition value
  | absorbed {levels : Nat} {condition child : Condition} {control : Control} :
    condition.control = some control → isContainer control.kind = true →
    child ∈ condition.children → Inferred levels child (isOr (operator control)) →
    Inferred (levels + 1) condition (isOr (operator control) ^^ isNegated (operator control))
  | agreed {levels : Nat} {condition : Condition} {control : Control} :
    condition.control = some control → isContainer control.kind = true → condition.children ≠ [] →
    (∀ child ∈ condition.children, Inferred levels child !isOr (operator control)) →
    Inferred (levels + 1) condition (!isOr (operator control) ^^ isNegated (operator control))

variable {condition : Condition} {control : Control} {levels : Nat} {value : Bool}

theorem kind_ne_constant (h : isContainer control.kind = true) : control.kind ≠ .constant := by
  intro hkind
  rw [hkind] at h
  exact absurd h (by decide)

theorem Inferred.mono {deeper : Nat} (h : Inferred levels condition value) (hle : levels ≤ deeper) :
    Inferred deeper condition value := by
  induction h generalizing deeper with
  | constant hcontrol hkind hvalue =>
    obtain ⟨n, rfl⟩ : ∃ n, deeper = n + 1 := ⟨deeper - 1, by omega⟩
    exact .constant hcontrol hkind hvalue
  | absorbed hcontrol hkind hchild _ ih =>
    obtain ⟨n, rfl⟩ : ∃ n, deeper = n + 1 := ⟨deeper - 1, by omega⟩
    exact .absorbed hcontrol hkind hchild (ih (by omega))
  | agreed hcontrol hkind hchildren _ ih =>
    obtain ⟨n, rfl⟩ : ∃ n, deeper = n + 1 := ⟨deeper - 1, by omega⟩
    exact .agreed hcontrol hkind hchildren fun child hchild => ih child hchild (by omega)

theorem mapM_id_eq_some {values : List (Option Bool)} {known : List Bool} :
    values.mapM id = some known ↔ values = known.map some := by
  induction values generalizing known with
  | nil => cases known <;> simp
  | cons head rest ih =>
    rw [List.mapM_cons, Option.bind_eq_bind, Option.bind_eq_some_iff]
    constructor
    · rintro ⟨value, rfl, htail⟩
      obtain ⟨found, hfound, hknown⟩ := Option.bind_eq_some_iff.mp htail
      rw [ih.mp hfound, ← Option.some.inj hknown, List.map_cons]
    · intro h
      obtain ⟨value, found, rfl, rfl, hrest⟩ := List.map_eq_cons_iff.mp h.symm
      exact ⟨value, rfl, Option.bind_eq_some_iff.mpr ⟨found, ih.mpr hrest.symm, rfl⟩⟩

/-- One child of the absorbing value decides, and otherwise all of them do. -/
theorem combine_eq_some_iff {or : Bool} {values : List (Option Bool)} :
    combine or values = some value ↔
      (some or ∈ values ∧ value = or) ∨ ((∀ known ∈ values, known = some !or) ∧ value = !or) := by
  have hdecided : combine or values =
      if some or ∈ values then some or
      else (values.mapM id).map fun values => if or = true then values.any id else
        values.all id := by
    unfold combine
    cases or <;> simp
  rw [hdecided]
  by_cases hmem : some or ∈ values
  · have hdiffer : ¬ ∀ known ∈ values, known = some !or := fun h => by simpa using h _ hmem
    simp [hmem, hdiffer, eq_comm]
  · rw [if_neg hmem, Option.map_eq_some_iff]
    simp only [hmem, false_and, false_or, mapM_id_eq_some]
    constructor
    · rintro ⟨known, rfl, rfl⟩
      have hall : ∀ value ∈ known, value = !or := fun value hvalue =>
        Bool.eq_not_of_ne fun h => hmem (List.mem_map.mpr ⟨value, hvalue, congrArg some h⟩)
      refine ⟨fun value hvalue => ?_, ?_⟩
      · obtain ⟨found, hfound, rfl⟩ := List.mem_map.mp hvalue
        exact congrArg some (hall found hfound)
      · cases or with
        | false => simpa using hall
        | true => simpa using hall
    · rintro ⟨hall, rfl⟩
      refine ⟨values.map fun _ => !or, ?_, ?_⟩
      · rw [List.map_map]
        exact (List.map_id values).symm.trans (List.map_congr_left hall)
      · cases or with
        | false => simp
        | true => simp

theorem evaluate_constant (hcontrol : condition.control = some control)
    (hkind : control.kind = .constant) :
    evaluate (levels + 1) condition = condition.scalar.bind parseConstant := by
  rw [evaluate, hcontrol]
  exact if_pos hkind

theorem evaluate_container (hcontrol : condition.control = some control)
    (hkind : isContainer control.kind = true)
    (hchildren : condition.children ≠ []) : evaluate (levels + 1) condition =
      (combine (isOr (operator control)) (condition.children.map (evaluate levels))).map
        (· ^^ isNegated (operator control)) := by
  have hnonempty : condition.children.isEmpty = false := by simpa using hchildren
  have hnegate : (fun value => if isNegated (operator control) = true then !value else value) =
      (· ^^ isNegated (operator control)) := by
    funext value
    cases isNegated (operator control) <;> simp
  rw [evaluate, hcontrol]
  simp only [if_neg (kind_ne_constant hkind), hkind, hnonempty, Bool.true_eq_false,
    Bool.false_eq_true, if_false, hnegate]

/-- The evaluator decides what can be inferred. -/
theorem evaluate_eq_some_iff : evaluate levels condition = some value ↔
    Inferred levels condition value := by
  induction levels generalizing condition value with
  | zero => exact iff_of_false (fun h => nomatch h) (fun h => nomatch h)
  | succ levels ih =>
    constructor
    · intro h
      cases hcontrol : condition.control with
      | none =>
        rw [evaluate, hcontrol] at h
        cases h
      | some control =>
        by_cases hconstant : control.kind = .constant
        · rw [evaluate_constant hcontrol hconstant] at h
          exact .constant hcontrol hconstant h
        by_cases hkind : isContainer control.kind = true
        · by_cases hchildren : condition.children = []
          · rw [evaluate, hcontrol] at h
            simp [hconstant, hkind, hchildren] at h
          · rw [evaluate_container hcontrol hkind hchildren, Option.map_eq_some_iff] at h
            obtain ⟨combined, hcombined, rfl⟩ := h
            obtain ⟨hmem, rfl⟩ | ⟨hall, rfl⟩ := combine_eq_some_iff.mp hcombined
            · obtain ⟨child, hchild, hvalue⟩ := List.mem_map.mp hmem
              exact .absorbed hcontrol hkind hchild (ih.mp hvalue)
            · exact .agreed hcontrol hkind hchildren fun child hchild =>
                ih.mp (hall _ (List.mem_map_of_mem hchild))
        · rw [evaluate, hcontrol] at h
          simp [hconstant, hkind] at h
    · intro h
      cases h with
      | constant hcontrol hkind hvalue => rwa [evaluate_constant hcontrol hkind]
      | absorbed hcontrol hkind hchild hvalue =>
        rw [evaluate_container hcontrol hkind (List.ne_nil_of_mem hchild), Option.map_eq_some_iff]
        exact ⟨_, combine_eq_some_iff.mpr (.inl ⟨List.mem_map.mpr ⟨_, hchild, ih.mpr hvalue⟩, rfl⟩),
          rfl⟩
      | agreed hcontrol hkind hchildren hvalues =>
        rw [evaluate_container hcontrol hkind hchildren, Option.map_eq_some_iff]
        refine ⟨_, combine_eq_some_iff.mpr (.inr ⟨fun known hknown => ?_, rfl⟩), rfl⟩
        obtain ⟨child, hchild, rfl⟩ := List.mem_map.mp hknown
        exact ih.mpr (hvalues child hchild)

/-! ## The documented value -/

theorem holdsEach_eq (truth : Condition → Bool) (children : List Condition) :
    holdsEach truth children = children.map (holds truth) := by
  induction children with
  | nil => rfl
  | cons child rest ih => rw [holdsEach, ih, List.map_cons]

theorem holds_constant (truth : Condition → Bool) (hcontrol : condition.control = some control)
    (hkind : control.kind = .constant) :
    holds truth condition = (condition.scalar.bind parseConstant).getD (truth condition) := by
  cases condition
  simp only [holds, hcontrol, hkind, if_true]
  rfl

theorem holds_container (truth : Condition → Bool) (hcontrol : condition.control = some control)
    (hkind : isContainer control.kind = true) :
    holds truth condition = reading control.op (condition.children.map (holds truth)) := by
  cases condition
  simp only [holds, hcontrol, hkind, if_neg (kind_ne_constant hkind), if_true, holdsEach_eq]
  rfl

theorem eqIgnoreAsciiCase_of_ne {op left right : Str} (h : eqIgnoreAsciiCase op left = true)
    (hne : left.map Char.toLower ≠ right.map Char.toLower) :
    eqIgnoreAsciiCase op right = false := by
  have hleft : op.map Char.toLower = left.map Char.toLower := eq_of_beq h
  exact beq_false_of_ne fun hright => hne (hleft.symm.trans hright)

/-- The operator names one of the readings. -/
theorem reading_eq (control : Control) (values : List Bool) : reading control.op values =
    if isOr (operator control) = true then (values.any id ^^ isNegated (operator control))
    else if isNegated (operator control) = true then !values.any id
    else values.all id := by
  unfold operator reading
  cases control.op with
  | none => rfl
  | some op =>
    have hname : ∀ name : String, hasOp (some op) name = eqIgnoreAsciiCase op name.toList :=
      fun _ => rfl
    rw [hname, hname, hname, Option.getD_some]
    unfold isOr isNegated
    by_cases hor : eqIgnoreAsciiCase op "or".toList = true
    · have hnot : eqIgnoreAsciiCase op "not".toList = false :=
        eqIgnoreAsciiCase_of_ne hor (by decide)
      have hnor : eqIgnoreAsciiCase op "nor".toList = false :=
        eqIgnoreAsciiCase_of_ne hor (by decide)
      rw [hor, hnot, hnor, if_pos rfl, Bool.true_or, if_pos rfl, Bool.or_false, Bool.xor_false]
    · rw [if_neg hor, Bool.eq_false_iff.mpr hor, Bool.false_or]
      by_cases hnor : eqIgnoreAsciiCase op "nor".toList = true
      · rw [if_pos (.inr hnor), if_pos hnor, hnor, Bool.or_true, Bool.xor_true]
      · rw [if_neg hnor, Bool.eq_false_iff.mpr hnor, Bool.or_false]
        simp only [Bool.false_eq_true, or_false]

/-! ## Right verdicts -/

theorem Part.trans {tree middle part : Condition} (htree : Part tree middle)
    (h : Part middle part) : Part tree part := by
  induction h with
  | self => exact htree
  | child _ hmem ih => exact .child ih hmem

variable {child : Condition}

theorem Part.of_child {tree part : Condition} (hchild : child ∈ tree.children)
    (h : Part child part) : Part tree part :=
  Part.trans (.child .self hchild) h

/-- `NOT`, and not `NOR`. -/
def isNot (control : Control) : Prop :=
  isContainer control.kind = true ∧ isOr (operator control) = false ∧
    isNegated (operator control) = true

/-- Where constants decide that one condition of a `NOT` does not hold, the others never do. -/
def Unmixed (property : Condition) : Prop :=
  ∀ control, property.control = some control → isNot control →
    (∃ child ∈ property.children, Inferred 63 child false) → ∀ child ∈ property.children,
      Always child false

variable {children : List Condition} {truth : Condition → Bool}

theorem any_of_child
    (hchild : child ∈ children) (h : holds truth child = true) :
    (children.map (holds truth)).any id = true :=
  List.any_eq_true.mpr ⟨_, List.mem_map_of_mem hchild, h⟩

theorem any_of_all
    (h : ∀ child ∈ children, holds truth child = false) :
    (children.map (holds truth)).any id = false := by
  rw [List.any_eq_false]
  intro value hvalue
  obtain ⟨child, hchild, rfl⟩ := List.mem_map.mp hvalue
  simp [h child hchild]

theorem all_of_all
    (h : ∀ child ∈ children, holds truth child = true) :
    (children.map (holds truth)).all id = true := by
  rw [List.all_eq_true]
  intro value hvalue
  obtain ⟨child, hchild, rfl⟩ := List.mem_map.mp hvalue
  exact h child hchild

theorem all_of_child
    (hchild : child ∈ children) (h : holds truth child = false) :
    (children.map (holds truth)).all id = false :=
  List.all_eq_false.mpr ⟨_, List.mem_map_of_mem hchild, by simp [h]⟩

/-- What is inferred is so, where no `NOT` below is mixed. -/
theorem always_of_inferred (h : Inferred levels condition value) (hle : levels ≤ 64)
    (hunmixed : ∀ part, Part condition part → Unmixed part) : Always condition value := by
  induction h with
  | constant hcontrol hkind hvalue =>
    intro truth
    rw [holds_constant truth hcontrol hkind, hvalue]
    rfl
  | @absorbed levels condition child control hcontrol hkind hchild hinferred ih =>
    intro truth
    have hvalue := ih (by omega) (fun part hpart => hunmixed part (hpart.of_child hchild)) truth
    rw [holds_container truth hcontrol hkind, reading_eq]
    cases hor : isOr (operator control) with
    | true =>
      rw [hor] at hvalue
      rw [if_pos rfl, any_of_child hchild hvalue]
    | false =>
      rw [hor] at hvalue hinferred
      rw [if_neg Bool.false_ne_true]
      cases hnegated : isNegated (operator control) with
      | true =>
        have hall := hunmixed _ .self control hcontrol ⟨hkind, hor, hnegated⟩
          ⟨child, hchild, hinferred.mono (by omega)⟩
        rw [if_pos rfl, any_of_all fun child hchild => hall child hchild truth]
        rfl
      | false =>
        rw [if_neg Bool.false_ne_true, all_of_child hchild hvalue]
        rfl
  | @agreed levels condition control hcontrol hkind hchildren hinferred ih =>
    intro truth
    have hvalues : ∀ child ∈ condition.children, holds truth child = !isOr (operator control) :=
      fun child hchild =>
      ih child hchild (by omega) (fun part hpart => hunmixed part (hpart.of_child hchild)) truth
    rw [holds_container truth hcontrol hkind, reading_eq]
    cases hor : isOr (operator control) with
    | true =>
      rw [hor] at hvalues
      rw [if_pos rfl, any_of_all hvalues]
      rfl
    | false =>
      rw [hor] at hvalues
      rw [if_neg Bool.false_ne_true]
      cases isNegated (operator control) with
      | true =>
        obtain ⟨child, hchild⟩ := List.exists_mem_of_ne_nil _ hchildren
        rw [if_pos rfl, any_of_child hchild (hvalues child hchild)]
        rfl
      | false =>
        rw [if_neg Bool.false_ne_true, all_of_all hvalues]
        rfl

theorem control_of_firstControl (h : condition.firstControl = some control) :
    condition.control = some control := by
  unfold Condition.firstControl at h
  unfold Condition.control
  cases hcontrols : condition.fields.controls with
  | nil => simp [hcontrols] at h
  | cons first rest =>
    rw [hcontrols, List.head?_cons, Option.join_some] at h
    rw [h]
    rfl

/-- The fields of a constant agree that it is one. -/
theorem control_of_isConstant (h : condition.isConstant = true) :
    ∃ control, condition.control = some control ∧ control.kind = .constant := by
  obtain ⟨field, hfield, hconstant⟩ := List.any_eq_true.mp h
  obtain ⟨control, rfl, hkind⟩ := (Option.any_eq_true _ _).mp hconstant
  refine ⟨control, ?_, by simpa using hkind⟩
  cases hfound : condition.control with
  | none =>
    have hnone := List.findSome?_eq_none_iff.mp hfound _ hfield
    cases hnone
  | some found =>
    obtain ⟨other, hother, hsome⟩ := List.exists_of_findSome?_eq_some hfound
    rw [show other = some found from hsome] at hother
    exact condition.fields.agree _ hother _ hfield (by simp) (by simp)

theorem always_of_constantOf (h : constantOf child = some value) : Always child value := by
  unfold constantOf at h
  split_ifs at h with hconstant
  obtain ⟨control, hcontrol, hkind⟩ := control_of_isConstant hconstant
  obtain ⟨scalar, hscalar, hvalue⟩ := Option.bind_eq_some_iff.mp h
  have hparse : parseConstant scalar = some value := by
    unfold parseConstant eqIgnoreAsciiCase
    by_cases hyes : toAsciiLowercase scalar = "yes".toList
    · rw [hyes] at hvalue
      rw [show scalar.map Char.toLower = "yes".toList from hyes]
      exact hvalue
    · by_cases hno : toAsciiLowercase scalar = "no".toList
      · rw [hno] at hvalue
        rw [show scalar.map Char.toLower = "no".toList from hno]
        exact hvalue
      · rw [if_neg (not_or.mpr ⟨hyes, hno⟩)] at hvalue
        cases hvalue
  intro truth
  rw [holds_constant truth hcontrol hkind, hscalar, Option.bind_some, hparse]
  rfl

theorem reading_of_hasOp (op : Option Str) (values : List Bool) :
    (hasOp op "and" = true → reading op values = values.all id) ∧
      (hasOp op "or" = true → reading op values = values.any id) ∧
        (hasOp op "not" = true → reading op values = !values.any id) := by
  cases op with
  | none => exact ⟨(nomatch ·), (nomatch ·), (nomatch ·)⟩
  | some op =>
    have hname : ∀ name : String, hasOp (some op) name = eqIgnoreAsciiCase op name.toList :=
      fun _ => rfl
    unfold reading
    rw [hname, hname, hname, hname]
    refine ⟨fun h => ?_, fun h => if_pos h, fun h => ?_⟩
    · have hor : eqIgnoreAsciiCase op "or".toList = false := eqIgnoreAsciiCase_of_ne h (by decide)
      have hnot : eqIgnoreAsciiCase op "not".toList = false := eqIgnoreAsciiCase_of_ne h (by decide)
      have hnor : eqIgnoreAsciiCase op "nor".toList = false := eqIgnoreAsciiCase_of_ne h (by decide)
      rw [hor, hnot, hnor, if_neg Bool.false_ne_true, if_neg (by simp)]
    · have hor : eqIgnoreAsciiCase op "or".toList = false := eqIgnoreAsciiCase_of_ne h (by decide)
      rw [hor, if_neg Bool.false_ne_true, if_pos (.inl h)]

theorem always_of_constants (hcontrol : condition.control = some control)
    (hkind : control.kind = .logic)
    (h : constantContainerValue control.op condition.children = some value) :
    Always condition value := by
  have hcontainer : isContainer control.kind = true := by rw [hkind]; rfl
  have hconstants : ∀ known ∈ condition.children.filterMap constantOf, ∃ child ∈ condition.children,
    Always child known := by
    intro known hknown
    obtain ⟨child, hchild, hvalue⟩ := List.mem_filterMap.mp hknown
    exact ⟨child, hchild, always_of_constantOf hvalue⟩
  intro truth
  rw [holds_container truth hcontrol hcontainer]
  obtain ⟨hand, hor, hnot⟩ := reading_of_hasOp control.op (condition.children.map (holds truth))
  unfold constantContainerValue at h
  by_cases hfalse : hasOp control.op "and" = true ∧ false ∈ condition.children.filterMap constantOf
  · rw [if_pos hfalse] at h
    obtain ⟨child, hchild, hvalue⟩ := hconstants false hfalse.2
    rw [hand hfalse.1, all_of_child hchild (hvalue truth), Option.some.inj h]
  rw [if_neg hfalse] at h
  by_cases htrue : hasOp control.op "or" = true ∧ true ∈ condition.children.filterMap constantOf
  · rw [if_pos htrue] at h
    obtain ⟨child, hchild, hvalue⟩ := hconstants true htrue.2
    rw [hor htrue.1, any_of_child hchild (hvalue truth), Option.some.inj h]
  rw [if_neg htrue] at h
  split_ifs at h with hall
  obtain ⟨hop, hlength, -⟩ := hall
  -- every child is a constant, so that its value is among them
  have hknown : ∀ child ∈ condition.children, ∃ known ∈ condition.children.filterMap constantOf,
    Always child known := by
    intro child hchild
    obtain ⟨known, hknown⟩ := Option.isSome_iff_exists.mp
      (List.filterMap_length_eq_length.mp hlength child hchild)
    exact ⟨known, List.mem_filterMap.mpr ⟨child, hchild, hknown⟩, always_of_constantOf hknown⟩
  rw [hnot hop, ← Option.some.inj h]
  by_cases hsome : ∃ child ∈ condition.children, holds truth child = true
  · obtain ⟨child, hchild, hvalue⟩ := hsome
    obtain ⟨known, hmem, halways⟩ := hknown child hchild
    have htrue : known = true := (halways truth).symm.trans hvalue
    rw [any_of_child hchild hvalue, eq_comm, Bool.not_true]
    exact List.all_eq_false.mpr ⟨known, hmem, by simp [htrue]⟩
  · have hnone : ∀ child ∈ condition.children, holds truth child = false := fun child hchild =>
      Bool.eq_false_iff.mpr fun hvalue => hsome ⟨child, hchild, hvalue⟩
    rw [any_of_all hnone, eq_comm, Bool.not_false]
    refine List.all_eq_true.mpr fun known hmem => ?_
    obtain ⟨child, hchild, halways⟩ := hconstants known hmem
    rw [← halways truth, hnone child hchild]
    rfl

/-- The lints of a logic container are right about it. -/
theorem always_of_logicLints (hcontrol : condition.control = some control)
    (hkind : control.kind = .logic)
    {lint : ControlLint} (hlint : lint ∈ logicLints control condition) {declared : Condition}
    (h : lint.declares condition = some (declared, value)) : Always declared value := by
  unfold logicLints at hlint
  obtain (hcount | hsingle) | hconstant := (List.mem_append.mp hlint).imp_left List.mem_append.mp
  · split_ifs at hcount with hnot hlength hempty
    · rw [List.mem_singleton.mp hcount] at h
      cases h
    · cases hcount
    · rw [List.mem_singleton.mp hcount] at h
      cases h
      intro truth
      have hcontainer : isContainer control.kind = true := by rw [hkind]; rfl
      rw [holds_container truth hcontrol hcontainer, List.isEmpty_iff.mp hempty]
      unfold reading
      by_cases hor : hasOp control.op "or" = true
      · rw [if_pos hor, hor]
        rfl
      · rw [if_neg hor, Bool.eq_false_iff.mpr hor]
        simp
    · cases hcount
  · split_ifs at hsingle with hone
    · rw [List.mem_singleton.mp hsingle] at h
      cases h
    · cases hsingle
  · obtain ⟨known, hknown, rfl⟩ := Option.map_eq_some_iff.mp (Option.mem_toList.mp hconstant)
    cases h
    exact always_of_constants hcontrol hkind hknown

/-- The guard of a branch is declared what the evaluator makes of it. -/
theorem inferred_of_branchLints {lint : ControlLint} (hlint : lint ∈ branchLints control condition)
    {declared : Condition} (h : lint.declares condition = some (declared, value)) :
    declared ∈ condition.children ∧ constantControlValue declared = some value := by
  unfold branchLints at hlint
  cases hguard : control.guard with
  | none =>
    rw [hguard] at hlint
    cases hlint
  | some guardName =>
    rw [hguard] at hlint
    obtain (hvalue | hmissing) | hempty := (List.mem_append.mp hlint).imp_left List.mem_append.mp
    · obtain ⟨guard, hfound, hmade⟩ := Option.bind_eq_some_iff.mp (Option.mem_toList.mp hvalue)
      obtain ⟨known, hknown, rfl⟩ := Option.map_eq_some_iff.mp hmade
      cases h
      exact ⟨List.mem_of_find?_eq_some hfound, hknown⟩
    · split_ifs at hmissing
      · rw [List.mem_singleton.mp hmissing] at h
        cases h
      · cases hmissing
    · split_ifs at hempty
      · rw [List.mem_singleton.mp hempty] at h
        cases h
      · cases hempty

/-- **Verdicts about constant conditions are right**, and the two evaluators agree, exactly where no
`NOT` of the tree is mixed. -/
theorem sound_iff (passedOver : TextRange → Bool) (tree : Condition) :
    Sound passedOver tree ↔ ∀ property, Part tree property → Unmixed property := by
  constructor
  · intro hsound property hpart control hcontrol ⟨hkind, hor, hnegated⟩ ⟨child, hchild, hinferred⟩
    -- the evaluator takes the `NOT` for true
    have htrue : Inferred 64 property (isOr (operator control) ^^ isNegated (operator control)) :=
      .absorbed hcontrol hkind hchild (by rwa [hor])
    rw [hor, hnegated] at htrue
    have halways := (hsound property hpart).evaluated true (evaluate_eq_some_iff.mpr htrue)
    intro other hother truth
    have hvalue := halways truth
    rw [holds_container truth hcontrol hkind, reading_eq, if_neg (by simp [hor]),
      if_pos hnegated] at hvalue
    refine Bool.eq_false_iff.mpr fun h => ?_
    rw [any_of_child hother h] at hvalue
    cases hvalue
  · intro hunmixed property hpart
    have hevaluated : ∀ part, Part tree part → ∀ value, constantControlValue part = some value →
      Always part value :=
      fun part hpart value h =>
        always_of_inferred (evaluate_eq_some_iff.mp h) le_rfl fun other hother =>
          hunmixed other (hpart.trans hother)
    have hlinted : ∀ lint ∈ controlLints passedOver property, ∀ condition value,
        lint.declares property = some (condition, value) → Always condition value := by
      intro lint hlint condition value hdeclares
      unfold controlLints at hlint
      split_ifs at hlint
      · cases hlint
      cases hfirst : property.firstControl with
      | none =>
        rw [hfirst] at hlint
        cases hlint
      | some control =>
        rw [hfirst] at hlint
        simp only at hlint
        split_ifs at hlint with hlogic hbranch
        · exact always_of_logicLints (control_of_firstControl hfirst) hlogic hlint hdeclares
        · obtain ⟨hchild, hvalue⟩ := inferred_of_branchLints hlint hdeclares
          exact hevaluated condition (hpart.child hchild) value hvalue
        · cases hlint
    refine ⟨hevaluated property hpart, hlinted, fun lint hlint value declared hvalue hdeclares =>
      ?_⟩
    have hdeclared := hlinted lint hlint property declared hdeclares fun _ => false
    exact hdeclared.symm.trans (hevaluated property hpart value hvalue fun _ => false)

/-- A condition without a control. -/
def plain (key : Str) : Condition := .property key ⟨0, 0, le_rfl⟩ none ⟨[], by simp⟩ []

def constant (key value : Str) : Condition :=
  .property key ⟨0, 0, le_rfl⟩ (some value) ⟨[some ⟨.constant, none, none⟩], by simp⟩ []

def notOf (children : List Condition) : Condition :=
  .property "NOT".toList ⟨0, 0, le_rfl⟩ none ⟨[some ⟨.logic, none, some "NOT".toList⟩], by simp⟩
    children

/-- `NOT = { always = no is_at_war = yes }` is taken for always true, though none of both may
hold. -/
theorem not_sound_mixed :
    ¬ Sound (fun _ => false)
      (notOf [constant "always".toList "no".toList, plain "is_at_war".toList]) := by
  intro hsound
  have halways := (hsound _ .self).evaluated true (by decide) fun _ => true
  revert halways
  decide

end ParadoxCode.Hir.Conditions
