import Mathlib.Tactic.Ring
import ParadoxCode.Hir.Template

/-!
# Template relations

`template_relations.rs`: which texts the slots of a token take so that it spells a candidate. One
slot name has a unique length and is read off directly; several names are searched for with a stack
of partial assignments. Texts are compared ignoring ASCII case throughout, and an assignment keeps
the spelling of the first occurrence.

1. `Rows` follows the fragments with what is bound so far, as both algorithms do.
2. The search takes every task off its stack with all its rows (`inverseLoop_item`).
3. The single name is forced to the width that is left for it (`fitWidth_iff`).
-/

namespace ParadoxCode.Hir.TemplateRelations

open Rules (TemplateFragment)
open Format (eqIgnoreAsciiCase)

/-- An assignment of names in lower case to texts. -/
abbrev Witness : Type := Bindings

/-! ## The budget -/

structure SearchBudget where
  remaining : Nat
  coverage : AnalysisCoverage

def SearchBudget.step (budget : SearchBudget) : Bool × SearchBudget :=
  if budget.remaining = 0 then (false, { budget with coverage := budget.coverage.limit .nodes })
  else (true, { budget with remaining := budget.remaining - 1 })

variable {budget : SearchBudget}

theorem SearchBudget.remaining_step_lt (h : budget.step.1 = true) :
    budget.step.2.remaining < budget.remaining := by
  unfold step at h ⊢
  split_ifs at h ⊢ with hzero
  exact Nat.sub_lt (Nat.pos_of_ne_zero hzero) Nat.one_pos

/-! ## Inversion -/

def slotName : TemplateFragment → Option Str
  | .parameter name _ => some (toAsciiLowercase name)
  | .literal _ => none

/-- The names of the slots, each once. -/
def slotNames (fragments : List TemplateFragment) : List Str := (fragments.filterMap slotName).dedup

/-- The bytes of the literals. -/
def literalBytes (fragments : List TemplateFragment) : Nat :=
  (fragments.map fun
    | .literal text => byteLen text
    | .parameter _ _ => 0).sum

def slotCount (fragments : List TemplateFragment) : Nat := fragments.countP fun part =>
    (slotName part).isSome

/-- The loop over the fragments where all slots have one width, with the text that is bound. -/
def fitWidth (value : Str) (width : Nat) : List TemplateFragment → Nat → Option Str →
    Option (Option Str)
  | [], _, bound => some bound
  | .literal text :: parts, offset, bound =>
    match getText value offset (offset + byteLen text) with
    | none => none
    | some piece => if eqIgnoreAsciiCase piece text then
        fitWidth value width parts (offset + byteLen text) bound else none
  | .parameter _ _ :: parts, offset, bound =>
    match getText value offset (offset + width) with
    | none => none
    | some piece =>
      let expected := bound.getD piece
      if eqIgnoreAsciiCase piece expected then fitWidth value width parts (offset + width)
        (some expected) else none

/-- `inverse` for one name. -/
def inverseSingle (fragments : List TemplateFragment) (value : Str) (name : Str) : Finset Witness :=
  if byteLen value < literalBytes fragments then ∅
  else
    let bytes := byteLen value - literalBytes fragments
    if bytes % slotCount fragments ≠ 0 then ∅
    else
      match fitWidth value (bytes / slotCount fragments) fragments 0 none with
      | none => ∅
      | some bound => {(∅ : Witness).insert name (bound.getD [])}

/-- A partial assignment: the next fragment, the offset that it starts at and the bindings. -/
abbrev Task := Nat × Nat × Witness

/-- The loop over the ends of a slot, by the texts in front of them. -/
def pushEnds (index offset : Nat) (bindings : Witness) (name : Str) :
    List Str → List Task → SearchBudget → List Task × SearchBudget
  | [], pending, budget => (pending, budget)
  | front :: fronts, pending, budget =>
    let (went, budget) := budget.step
    if went then
      pushEnds index offset bindings name fronts
        ((index + 1, offset + byteLen front, bindings.insert name front) :: pending) budget
    else (pending, budget)

theorem SearchBudget.remaining_step_le (budget : SearchBudget) :
    budget.step.2.remaining ≤ budget.remaining := by
  unfold step
  split_ifs
  · exact le_rfl
  · exact Nat.sub_le _ _

variable {name : Str}

theorem remaining_pushEnds_le {index offset : Nat} {bindings : Witness} (fronts : List Str) :
    ∀ (pending : List Task) (budget : SearchBudget),
      (pushEnds index offset bindings name fronts pending budget).2.remaining ≤
        budget.remaining := by
  induction fronts with
  | nil => exact fun _ _ => le_rfl
  | cons front fronts ih =>
    intro pending budget
    unfold pushEnds
    dsimp only
    split_ifs
    · exact Nat.le_trans (ih _ _) budget.remaining_step_le
    · exact budget.remaining_step_le

/-- One task: what is left on the stack, the rows and the budget. -/
def inverseTask (fragments : List TemplateFragment) (value : Str) (task : Task)
    (pending : List Task)
    (rows : Finset Witness) (budget : SearchBudget) : List Task × Finset Witness × SearchBudget :=
  let (index, offset, bindings) := task
  match fragments[index]? with
  | none => (pending, if offset = byteLen value then insert bindings rows else rows, budget)
  | some (.literal text) =>
    match getText value offset (offset + byteLen text) with
    | some head =>
      (if eqIgnoreAsciiCase head text then (index + 1, offset + byteLen text, bindings) ::
        pending else pending, rows, budget)
    | none => (pending, rows, budget)
  | some (.parameter name _) =>
    match bindings[toAsciiLowercase name]? with
    | some bound =>
      match getText value offset (offset + byteLen bound) with
      | some head =>
        (if eqIgnoreAsciiCase head bound then (index + 1, offset + byteLen bound, bindings) ::
          pending else pending, rows, budget)
      | none => (pending, rows, budget)
    | none =>
      match getText value offset (byteLen value) with
      | some tail =>
        let (pending, budget) := pushEnds index offset bindings (toAsciiLowercase name) tail.inits
          pending budget
        (pending, rows, budget)
      | none => (pending, rows, budget)

theorem remaining_inverseTask_le (fragments : List TemplateFragment) (value : Str) (task : Task)
    (pending : List Task) (rows : Finset Witness) (budget : SearchBudget) :
    (inverseTask fragments value task pending rows budget).2.2.remaining ≤ budget.remaining := by
  unfold inverseTask
  dsimp only
  split
  · exact le_rfl
  · split <;> exact le_rfl
  · split
    · split <;> exact le_rfl
    · split
      · exact remaining_pushEnds_le _ _ _
      · exact le_rfl

/-- The search. The head of the list is the top of the stack. -/
def inverseLoop (fragments : List TemplateFragment) (value : Str) (pending : List Task)
    (rows : Finset Witness) (budget : SearchBudget) : Finset Witness × SearchBudget :=
  match pending with
  | [] => (rows, budget)
  | task :: pending =>
    if _h : budget.step.1 = true then
      inverseLoop fragments value (inverseTask fragments value task pending rows budget.step.2).1
        (inverseTask fragments value task pending rows budget.step.2).2.1
        (inverseTask fragments value task pending rows budget.step.2).2.2
    else (rows, budget.step.2)
termination_by budget.remaining
decreasing_by
  exact Nat.lt_of_le_of_lt (remaining_inverseTask_le _ _ _ _ _ _)
    (SearchBudget.remaining_step_lt _h)

/-- `inverse`. The source returns the rows in order. -/
def inverse (fragments : List TemplateFragment) (value : Str) (budget : SearchBudget) :
    Finset Witness × SearchBudget :=
  match slotNames fragments with
  | [name] =>
    let (went, budget) := budget.step
    if went then (inverseSingle fragments value name, budget) else (∅, budget)
  | _ => inverseLoop fragments value [(0, 0, ∅)] ∅ budget

/-! ## Joins -/

/-- Two rows agree on the names that both have. -/
def agrees (left right : Witness) : Bool :=
  left.toList.all fun entry => (right[entry.1]?).all fun other => eqIgnoreAsciiCase other entry.2

/-- The loop over the right rows. The last component is `false` where the budget ends. -/
def joinRow (left : Witness) : List Witness → Finset Witness → SearchBudget →
    Finset Witness × SearchBudget × Bool
  | [], joined, budget => (joined, budget, true)
  | right :: rows, joined, budget =>
    let (went, budget) := budget.step
    if went then
      joinRow left rows (if agrees left right then insert (left ∪ right) joined else joined) budget
    else (joined, budget, false)

def joinRows (right : List Witness) : List Witness → Finset Witness → SearchBudget →
    Finset Witness × SearchBudget
  | [], joined, budget => (joined, budget)
  | left :: rows, joined, budget =>
    let (joined, budget, went) := joinRow left right joined budget
    if went then joinRows right rows joined budget else (joined, budget)

def join (left right : List Witness) (budget : SearchBudget) : Finset Witness × SearchBudget :=
  joinRows right left ∅ budget

/-! ## What an inverse is -/

/-- Whether a piece of the candidate stands for a fragment. -/
def Fits (same : Str → Str → Prop) (witness : Witness) : TemplateFragment → Str → Prop
  | .literal text, piece => same piece text
  | .parameter name _, piece =>
    ∃ bound, witness[toAsciiLowercase name]? = some bound ∧ eqIgnoreAsciiCase piece bound = true

/-- The piece of the first slot with a name. -/
def firstPiece (name : Str) : List TemplateFragment → List Str → Option Str
  | part :: parts, piece :: pieces => if slotName part = some name then some piece else
      firstPiece name parts pieces
  | _, _ => none

/-- Pieces that spell the value, one for each fragment: literals are the same, the slots of a name
are equal up to ASCII case, and the assignment has the first of them. -/
structure Spelled (same : Str → Str → Prop) (fragments : List TemplateFragment) (value : Str)
    (witness : Witness)
    (pieces : List Str) : Prop where
  text : pieces.flatten = value
  fits : List.Forall₂ (Fits same witness) fragments pieces
  bound : ∀ name, witness[name]? = firstPiece name fragments pieces

/-- The assignments that spell a value up to ASCII case. -/
def Inverts (fragments : List TemplateFragment) (value : Str) (witness : Witness) : Prop :=
  ∃ pieces, Spelled (fun piece text => eqIgnoreAsciiCase piece text = true) fragments value
    witness pieces

/-- The rows behind what is bound so far. -/
def Rows : Witness → List TemplateFragment → Str → Witness → Prop
  | known, [], value, row => value = [] ∧ row = known
  | known, .literal text :: parts, value, row =>
    ∃ piece rest, value = piece ++ rest ∧ eqIgnoreAsciiCase piece text = true ∧
      Rows known parts rest row
  | known, .parameter name _ :: parts, value, row =>
    ∃ piece rest, value = piece ++ rest ∧
      match known[toAsciiLowercase name]? with
      | some bound => eqIgnoreAsciiCase piece bound = true ∧ Rows known parts rest row
      | none => Rows (known.insert (toAsciiLowercase name) piece) parts rest row

theorem eqIgnoreAsciiCase_refl (text : Str) : eqIgnoreAsciiCase text text = true := by
  unfold eqIgnoreAsciiCase
  exact beq_self_eq_true _

theorem getElem?_insert (known : Witness) (name other text : Str) :
    (known.insert name text)[other]? = if name = other then some text else known[other]? := by
  rw [Std.ExtTreeMap.getElem?_insert]
  simp only [Std.LawfulEqOrd.compare_eq_iff_eq]

theorem firstPiece_parameter (name other piece : Str) (range : TextRange)
    (parts : List TemplateFragment)
    (pieces : List Str) : firstPiece other (.parameter name range :: parts) (piece :: pieces) =
      if toAsciiLowercase name = other then some piece else firstPiece other parts pieces := by
  rw [firstPiece, slotName]
  exact if_congr Option.some_inj rfl rfl

variable {fragments : List TemplateFragment}

/-- The rows are the assignments that keep what is bound. -/
theorem rows_iff : ∀ {known : Witness} {value : Str} {row : Witness},
    Rows known fragments value row ↔ ∃ pieces : List Str, pieces.flatten = value ∧
      List.Forall₂ (Fits (fun piece text => eqIgnoreAsciiCase piece text = true) row)
        fragments pieces ∧
      ∀ name, row[name]? = (known[name]?).or (firstPiece name fragments pieces) := by
  induction fragments with
  | nil =>
    intro known value row
    unfold Rows
    constructor
    · rintro ⟨rfl, rfl⟩
      exact ⟨[], rfl, List.Forall₂.nil, fun name => (Option.or_none).symm⟩
    · rintro ⟨pieces, rfl, hfits, hbound⟩
      cases hfits
      refine ⟨rfl, Std.ExtTreeMap.ext_getElem? fun name => ?_⟩
      exact (hbound name).trans Option.or_none
  | cons part parts ih =>
    intro known value row
    cases part with
    | literal text =>
      unfold Rows
      constructor
      · rintro ⟨piece, rest, rfl, hsame, hrows⟩
        obtain ⟨pieces, rfl, hfits, hbound⟩ := ih.mp hrows
        exact ⟨piece :: pieces, rfl, List.Forall₂.cons hsame hfits, hbound⟩
      · rintro ⟨pieces, rfl, hfits, hbound⟩
        cases hfits with
        | cons hsame hfits => exact ⟨_, _, rfl, hsame, ih.mpr ⟨_, rfl, hfits, hbound⟩⟩
    | parameter name range =>
      unfold Rows
      cases hknown : known[toAsciiLowercase name]? with
      | some bound =>
        dsimp only
        -- a slot that is bound already adds nothing
        have hkeep : ∀ (piece : Str) (pieces : List Str) (other : Str),
            (known[other]?).or (firstPiece other (.parameter name range :: parts)
              (piece :: pieces)) =
              (known[other]?).or (firstPiece other parts pieces) := by
          intro piece pieces other
          by_cases hother : toAsciiLowercase name = other
          · rw [← hother, hknown]
            rfl
          · rw [firstPiece_parameter, if_neg hother]
        constructor
        · rintro ⟨piece, rest, rfl, hsame, hrows⟩
          obtain ⟨pieces, rfl, hfits, hbound⟩ := ih.mp hrows
          have hrow : row[toAsciiLowercase name]? = some bound := by
            rw [hbound, hknown]
            rfl
          exact ⟨piece :: pieces, rfl, List.Forall₂.cons ⟨bound, hrow, hsame⟩ hfits, fun other =>
            (hbound other).trans (hkeep piece pieces other).symm⟩
        · rintro ⟨pieces, rfl, hfits, hbound⟩
          cases hfits with
          | @cons _ piece _ pieces hfit hfits =>
            obtain ⟨bound', hrow, hsame⟩ := hfit
            obtain rfl : bound = bound' := by
              rw [hbound, hknown] at hrow
              exact Option.some.inj hrow
            exact ⟨piece, _, rfl, hsame, ih.mpr ⟨pieces, rfl, hfits, fun other =>
              (hbound other).trans (hkeep piece pieces other)⟩⟩
      | none =>
        dsimp only
        have hkeep : ∀ (piece : Str) (pieces : List Str) (other : Str),
            ((known.insert (toAsciiLowercase name) piece)[other]?).or
              (firstPiece other parts pieces) =
              (known[other]?).or (firstPiece other (.parameter name range :: parts)
                (piece :: pieces)) := by
          intro piece pieces other
          rw [getElem?_insert, firstPiece_parameter]
          by_cases hother : toAsciiLowercase name = other
          · rw [if_pos hother, if_pos hother, ← hother, hknown]
            rfl
          · rw [if_neg hother, if_neg hother]
        constructor
        · rintro ⟨piece, rest, rfl, hrows⟩
          obtain ⟨pieces, rfl, hfits, hbound⟩ := ih.mp hrows
          have hrow : row[toAsciiLowercase name]? = some piece := by
            rw [hbound, getElem?_insert, if_pos rfl]
            rfl
          exact ⟨piece :: pieces, rfl, List.Forall₂.cons ⟨piece, hrow, eqIgnoreAsciiCase_refl piece⟩
            hfits,
            fun other => (hbound other).trans (hkeep piece pieces other)⟩
        · rintro ⟨pieces, rfl, hfits, hbound⟩
          cases hfits with
          | @cons _ piece _ pieces hfit hfits =>
            exact ⟨piece, _, rfl, ih.mpr ⟨pieces, rfl, hfits, fun other =>
              (hbound other).trans (hkeep piece pieces other).symm⟩⟩

theorem rows_empty_iff {value : Str} {row : Witness} :
    Rows ∅ fragments value row ↔ Inverts fragments value row := by
  rw [rows_iff]
  constructor
  · rintro ⟨pieces, htext, hfits, hbound⟩
    exact ⟨pieces, htext, hfits, fun name => (hbound name).trans (by simp)⟩
  · rintro ⟨pieces, htext, hfits, hbound⟩
    exact ⟨pieces, htext, hfits, fun name => (hbound name).trans (by simp)⟩

/-! ## Pieces at an offset -/

theorem utf8Size_toLower (c : Char) : c.toLower.utf8Size = c.utf8Size := by
  unfold Char.toLower
  split_ifs with h
  · -- a capital letter and its small one are ASCII
    have h1 : c.val.toNat ≤ 90 := h.2
    have h2 : (c.val + 32).toNat ≤ 127 := by
      rw [UInt32.toNat_add]
      exact Nat.le_trans (Nat.mod_le _ _) (Nat.add_le_add_right h1 32 |>.trans (by decide))
    rw [Char.utf8Size, Char.utf8Size, if_pos (UInt32.le_iff_toNat_le.mpr h2),
      if_pos (UInt32.le_iff_toNat_le.mpr (Nat.le_trans h1 (by decide)))]
  · rfl

theorem byteLen_map_toLower (text : Str) : byteLen (text.map Char.toLower) = byteLen text := by
  induction text with
  | nil => rfl
  | cons c text ih => rw [List.map_cons, byteLen_cons, byteLen_cons, utf8Size_toLower, ih]

/-- Texts that differ in case only are equally long. -/
theorem byteLen_of_eqIgnoreAsciiCase {left right : Str} (h : eqIgnoreAsciiCase left right = true) :
    byteLen left = byteLen right := by
  unfold eqIgnoreAsciiCase at h
  rw [← byteLen_map_toLower left, beq_iff_eq.mp h, byteLen_map_toLower]

/-- The text behind a front is what the rest starts with. -/
theorem getText_front {front tail head : Str} {width : Nat} :
    getText (front ++ tail) (byteLen front) (byteLen front + width) = some head ↔
      ∃ rest, tail = head ++ rest ∧ byteLen head = width := by
  rw [getText_eq_some_iff]
  constructor
  · rintro ⟨before, after, heq, hbefore, hwidth⟩
    rw [List.append_assoc] at heq
    obtain ⟨rfl, rfl⟩ := append_inj_byteLen heq hbefore.symm
    exact ⟨after, rfl, by omega⟩
  · rintro ⟨rest, rfl, rfl⟩
    exact ⟨front, rest, (List.append_assoc _ _ _).symm, rfl, rfl⟩

theorem getText_tail (front tail : Str) :
    getText (front ++ tail) (byteLen front) (byteLen (front ++ tail)) = some tail := by
  rw [byteLen_append]
  exact getText_front.mpr ⟨[], (List.append_nil _).symm, rfl⟩

/-- A piece that is the same as a text up to case is the one that the search cuts out. -/
theorem exists_piece_iff (front : Str) {tail text : Str} {property : Str → Prop} :
    (∃ piece rest, tail = piece ++ rest ∧ eqIgnoreAsciiCase piece text = true ∧ property rest) ↔
      ∃ head, getText (front ++ tail) (byteLen front) (byteLen front + byteLen text) = some head ∧
        eqIgnoreAsciiCase head text = true ∧ ∃ rest, tail = head ++ rest ∧ property rest := by
  constructor
  · rintro ⟨piece, rest, rfl, hsame, hrest⟩
    exact ⟨piece, getText_front.mpr ⟨rest, rfl, byteLen_of_eqIgnoreAsciiCase hsame⟩, hsame,
      rest, rfl, hrest⟩
  · rintro ⟨head, -, hsame, rest, rfl, hrest⟩
    exact ⟨head, rest, rfl, hsame, hrest⟩

/-! ## The search -/

/-- With enough budget the loop takes a task off the stack with its rows. -/
def Takes (fragments : List TemplateFragment) (value : Str) (task : Task)
    (rows : Finset Witness) : Prop :=
  ∃ cost, ∀ pending found (budget : SearchBudget), cost ≤ budget.remaining →
    inverseLoop fragments value (task :: pending) found budget =
      inverseLoop fragments value pending (found ∪ rows)
        { budget with remaining := budget.remaining - cost }

theorem SearchBudget.step_eq (h : 0 < budget.remaining) :
    budget.step = (true, { budget with remaining := budget.remaining - 1 }) := by
  unfold step
  rw [if_neg (Nat.pos_iff_ne_zero.mp h)]

theorem inverseLoop_cons {value : Str} {task : Task} {pending : List Task}
    {rows : Finset Witness} (h : 0 < budget.remaining) :
    inverseLoop fragments value (task :: pending) rows budget =
      inverseLoop fragments value
        (inverseTask fragments value task pending rows
          { budget with remaining := budget.remaining - 1 }).1
        (inverseTask fragments value task pending rows
          { budget with remaining := budget.remaining - 1 }).2.1
        (inverseTask fragments value task pending rows
          { budget with remaining := budget.remaining - 1 }).2.2 := by
  rw [inverseLoop, SearchBudget.step_eq h, dif_pos rfl]

section Search

variable {fragments : List TemplateFragment} {value : Str}

/-- A task that adds rows and leaves nothing behind. -/
theorem Takes.of_leaf {task : Task} {rows : Finset Witness} (h : ∀ pending found budget,
    inverseTask fragments value task pending found budget = (pending, found ∪ rows, budget)) :
    Takes fragments value task rows :=
  ⟨1, fun pending found budget hcost => by rw [inverseLoop_cons hcost, h]⟩

/-- A task that leaves one task behind. -/
theorem Takes.of_next {task next : Task} {rows : Finset Witness}
    (hnext : Takes fragments value next rows)
    (h : ∀ pending found budget, inverseTask fragments value task pending found budget =
      (next :: pending, found, budget)) :
    Takes fragments value task rows := by
  obtain ⟨cost, hcost⟩ := hnext
  refine ⟨1 + cost, fun pending found budget hbudget => ?_⟩
  rw [inverseLoop_cons (by omega), h, hcost _ _ _ (by dsimp only; omega), Nat.sub_sub]

/-- The tasks of pieces are taken one after the other. -/
theorem takes_list (task : Str → Task) (rows : Str → Finset Witness) (pieces : List Str)
    (h : ∀ piece ∈ pieces, Takes fragments value (task piece) (rows piece)) :
    ∃ cost, ∀ pending found (budget : SearchBudget), cost ≤ budget.remaining →
      inverseLoop fragments value (pieces.map task ++ pending) found budget =
        inverseLoop fragments value pending (found ∪ pieces.toFinset.biUnion rows)
          { budget with remaining := budget.remaining - cost } := by
  induction pieces with
  | nil =>
    refine ⟨0, fun pending found budget _ => ?_⟩
    simp
  | cons piece pieces ih =>
    rw [List.forall_mem_cons] at h
    obtain ⟨first, hfirst⟩ := h.1
    obtain ⟨rest, hrest⟩ := ih h.2
    refine ⟨first + rest, fun pending found budget hbudget => ?_⟩
    rw [List.map_cons, List.cons_append, hfirst _ _ _ (by omega),
      hrest _ _ _ (by dsimp only; omega), Nat.sub_sub, Finset.union_assoc, List.toFinset_cons,
      Finset.biUnion_insert]

theorem pushEnds_eq (index offset : Nat) (bindings : Witness) (name : Str) (fronts : List Str) :
    ∀ (pending : List Task) (budget : SearchBudget), fronts.length ≤ budget.remaining →
      pushEnds index offset bindings name fronts pending budget =
        ((fronts.map fun front => (index + 1, offset + byteLen front,
          bindings.insert name front)).reverse ++ pending,
          { budget with remaining := budget.remaining - fronts.length }) := by
  induction fronts with
  | nil => exact fun _ _ _ => rfl
  | cons front fronts ih =>
    intro pending budget hbudget
    rw [List.length_cons] at hbudget
    unfold pushEnds
    rw [SearchBudget.step_eq (by omega)]
    dsimp only
    rw [if_pos rfl, ih _ _ (by dsimp only; omega), List.map_cons, List.reverse_cons,
      List.append_assoc, List.singleton_append, List.length_cons, Nat.sub_sub, Nat.add_comm 1]

/-- The loop takes every task with its rows. -/
theorem takes_rows {suffix : List TemplateFragment} :
    ∀ (index : Nat) (front tail : Str) (known : Witness),
    fragments.drop index = suffix → value = front ++ tail →
    ∃ rows : Finset Witness, (∀ row, row ∈ rows ↔ Rows known suffix tail row) ∧
      Takes fragments value (index, byteLen front, known) rows := by
  induction suffix with
  | nil =>
    intro index front tail known hsuffix hvalue
    have hnone : fragments[index]? = none := List.getElem?_eq_none (List.drop_eq_nil_iff.mp hsuffix)
    have hend : byteLen front = byteLen value ↔ tail = [] := by
      rw [hvalue, byteLen_append, ← byteLen_eq_zero_iff]
      omega
    refine ⟨if tail = [] then {known} else ∅, fun row => ?_,
      Takes.of_leaf fun pending found budget => ?_⟩
    · unfold Rows
      split_ifs with htail <;> simp [htail]
    · unfold inverseTask
      dsimp only
      rw [hnone]
      dsimp only
      by_cases htail : tail = []
      · rw [if_pos (hend.mpr htail), if_pos htail, Finset.union_comm, Finset.insert_eq]
      · rw [if_neg (fun h => htail (hend.mp h)), if_neg htail, Finset.union_empty]
  | cons part parts ih =>
    intro index front tail known hsuffix hvalue
    have hpart : fragments[index]? = some part := by
      rw [← List.head?_drop, hsuffix]
      rfl
    have hnext : fragments.drop (index + 1) = parts := by
      rw [← List.tail_drop, hsuffix]
      rfl
    -- a text that must stand next: of a literal or of a slot that is bound
    have hfixed : ∀ text : Str, (∀ pending found budget,
        inverseTask fragments value (index, byteLen front, known) pending found budget =
          match getText value (byteLen front) (byteLen front + byteLen text) with
          | some head => (if eqIgnoreAsciiCase head text then
              (index + 1, byteLen front + byteLen text, known) :: pending
            else pending, found, budget)
          | none => (pending, found, budget)) →
        ∃ rows : Finset Witness, (∀ row, row ∈ rows ↔ ∃ piece rest, tail = piece ++ rest ∧
            eqIgnoreAsciiCase piece text = true ∧ Rows known parts rest row) ∧
          Takes fragments value (index, byteLen front, known) rows := by
      intro text htask
      by_cases hmatch : ∃ head, getText (front ++ tail) (byteLen front)
        (byteLen front + byteLen text) = some head ∧
          eqIgnoreAsciiCase head text = true
      · obtain ⟨head, hhead, hsame⟩ := hmatch
        obtain ⟨rest, rfl, hlength⟩ := getText_front.mp hhead
        obtain ⟨rows, hrows, htakes⟩ := ih (index + 1) (front ++ head) rest known hnext
          (by rw [hvalue, List.append_assoc])
        rw [byteLen_append, hlength] at htakes
        refine ⟨rows, fun row => ?_, htakes.of_next fun pending found budget => ?_⟩
        · rw [exists_piece_iff front, hrows]
          constructor
          · exact fun h => ⟨head, hhead, hsame, rest, rfl, h⟩
          · rintro ⟨head', hhead', -, rest', heq, h⟩
            obtain rfl := Option.some.inj (hhead.symm.trans hhead')
            obtain rfl := List.append_cancel_left heq
            exact h
        · rw [htask, hvalue, hhead]
          dsimp only
          rw [if_pos hsame]
      · refine ⟨∅, fun row => ?_, Takes.of_leaf fun pending found budget => ?_⟩
        · refine iff_of_false (Finset.notMem_empty _) fun h => hmatch ?_
          obtain ⟨head, hhead, hsame, -⟩ := (exists_piece_iff front).mp h
          exact ⟨head, hhead, hsame⟩
        · rw [htask, hvalue, Finset.union_empty]
          cases hhead : getText (front ++ tail) (byteLen front) (byteLen front + byteLen text) with
          | none => rfl
          | some head =>
            dsimp only
            rw [if_neg fun hsame => hmatch ⟨head, hhead, hsame⟩]
    cases part with
    | literal text =>
      refine hfixed text fun pending found budget => ?_
      unfold inverseTask
      dsimp only
      rw [hpart]
    | parameter name range =>
      cases hknown : known[toAsciiLowercase name]? with
      | some bound =>
        obtain ⟨rows, hrows, htakes⟩ := hfixed bound fun pending found budget => by
          unfold inverseTask
          dsimp only
          rw [hpart]
          dsimp only
          rw [hknown]
        refine ⟨rows, fun row => ?_, htakes⟩
        rw [hrows]
        simp only [Rows, hknown]
      | none =>
        -- one task for each end of the slot
        have hend : ∀ piece ∈ tail.inits, ∃ rows : Finset Witness, (∀ row, row ∈ rows ↔
            ∃ rest, tail = piece ++ rest ∧ Rows (known.insert (toAsciiLowercase name) piece)
              parts rest row) ∧
            Takes fragments value
              (index + 1, byteLen front + byteLen piece, known.insert (toAsciiLowercase name) piece)
                rows := by
          intro piece hpiece
          obtain ⟨rest, hrest⟩ := (List.mem_inits _ _).mp hpiece
          obtain ⟨rows, hrows, htakes⟩ := ih (index + 1) (front ++ piece) rest
            (known.insert (toAsciiLowercase name) piece) hnext
              (by rw [hvalue, ← hrest, List.append_assoc])
          rw [byteLen_append] at htakes
          refine ⟨rows, fun row => ?_, htakes⟩
          rw [hrows]
          constructor
          · exact fun h => ⟨rest, hrest.symm, h⟩
          · rintro ⟨rest', heq, h⟩
            obtain rfl := List.append_cancel_left (hrest.trans heq)
            exact h
        choose! rowsOf hrowsOf using hend
        have hinits : ∀ piece, piece ∈ tail.inits.reverse ↔ piece ∈ tail.inits :=
          fun piece => List.mem_reverse
        obtain ⟨cost, hcost⟩ := takes_list
          (fun piece => (index + 1, byteLen front + byteLen piece,
            known.insert (toAsciiLowercase name) piece)) rowsOf
          tail.inits.reverse fun piece hpiece => (hrowsOf piece ((hinits piece).mp hpiece)).2
        refine ⟨tail.inits.reverse.toFinset.biUnion rowsOf, fun row => ?_,
          1 + tail.inits.length + cost, fun pending found budget hbudget => ?_⟩
        · simp only [Finset.mem_biUnion, List.mem_toFinset, hinits, Rows, hknown]
          constructor
          · rintro ⟨piece, hpiece, hrow⟩
            obtain ⟨rest, hrest, hrow⟩ := ((hrowsOf piece hpiece).1 row).mp hrow
            exact ⟨piece, rest, hrest, hrow⟩
          · rintro ⟨piece, rest, rfl, hrow⟩
            have hpiece : piece ∈ (piece ++ rest).inits :=
              (List.mem_inits _ _).mpr (List.prefix_append piece rest)
            exact ⟨piece, hpiece, ((hrowsOf piece hpiece).1 row).mpr ⟨rest, rfl, hrow⟩⟩
        · have htask : inverseTask fragments value (index, byteLen front, known) pending found
              { budget with remaining := budget.remaining - 1 } =
              (tail.inits.reverse.map (fun piece => (index + 1, byteLen front + byteLen piece,
                known.insert (toAsciiLowercase name) piece)) ++ pending, found,
                { budget with remaining := budget.remaining - 1 - tail.inits.length }) := by
            unfold inverseTask
            dsimp only
            rw [hpart]
            dsimp only
            rw [hknown]
            dsimp only
            rw [hvalue, getText_tail]
            dsimp only
            rw [pushEnds_eq _ _ _ _ _ _ _ (by dsimp only; omega), List.map_reverse]
          rw [inverseLoop_cons (by omega), htask, hcost _ _ _ (by dsimp only; omega),
            Nat.sub_sub, Nat.sub_sub]

end Search

/-! ## One name -/

/-- What is bound of a single name. -/
def bindingOf (name : Str) : Option Str → Witness
  | none => ∅
  | some text => (∅ : Witness).insert name text

theorem getElem?_bindingOf (name : Str) (bound : Option Str) :
    (bindingOf name bound)[name]? = bound := by
  cases bound with
  | none => simp [bindingOf]
  | some text => rw [bindingOf, getElem?_insert, if_pos rfl]

/-- All slots have one name. -/
def OneName (name : Str) (fragments : List TemplateFragment) : Prop :=
  ∀ part ∈ fragments, ∀ other ∈ slotName part, other = name

variable {parts : List TemplateFragment}

theorem OneName.tail {part : TemplateFragment}
    (h : OneName name (part :: parts)) : OneName name parts := fun other hother =>
  h other (List.mem_cons_of_mem _ hother)

theorem OneName.parameter {name spelled : Str} {range : TextRange} {parts : List TemplateFragment}
    (h : OneName name (.parameter spelled range :: parts)) : toAsciiLowercase spelled = name :=
  h _ List.mem_cons_self _ rfl

theorem literalBytes_literal (text : Str) (parts : List TemplateFragment) :
    literalBytes (.literal text :: parts) = byteLen text + literalBytes parts := by
  simp [literalBytes]

theorem literalBytes_parameter (name : Str) (range : TextRange) (parts : List TemplateFragment) :
    literalBytes (.parameter name range :: parts) = literalBytes parts := by
  simp [literalBytes]

theorem slotCount_literal (text : Str) (parts : List TemplateFragment) :
    slotCount (.literal text :: parts) = slotCount parts := by
  simp [slotCount, slotName]

theorem slotCount_parameter (name : Str) (range : TextRange) (parts : List TemplateFragment) :
    slotCount (.parameter name range :: parts) = slotCount parts + 1 := by
  simp [slotCount, slotName]

/-- The slots of a row have one width. -/
theorem byteLen_of_rows : ∀ (bound : Option Str) {tail : Str}
    {row : Witness}, OneName name parts → Rows (bindingOf name bound) parts tail row →
    ∃ width, (∀ text ∈ bound, byteLen text = width) ∧ byteLen tail =
      literalBytes parts + slotCount parts * width := by
  induction parts with
  | nil =>
    rintro bound tail row - ⟨rfl, -⟩
    refine ⟨(bound.map byteLen).getD 0, fun text htext => ?_, ?_⟩
    · rw [Option.mem_def.mp htext]
      rfl
    · simp [literalBytes, slotCount]
  | cons part parts ih =>
    intro bound tail row hname hrows
    cases part with
    | literal text =>
      obtain ⟨piece, rest, rfl, hsame, hrows⟩ := hrows
      obtain ⟨width, hbound, hlength⟩ := ih _ hname.tail hrows
      refine ⟨width, hbound, ?_⟩
      rw [literalBytes_literal, slotCount_literal, byteLen_append,
        byteLen_of_eqIgnoreAsciiCase hsame, hlength, Nat.add_assoc]
    | parameter spelled range =>
      obtain ⟨piece, rest, rfl, hrows⟩ := hrows
      rw [hname.parameter, getElem?_bindingOf] at hrows
      rw [literalBytes_parameter, slotCount_parameter, byteLen_append]
      cases bound with
      | none =>
        obtain ⟨width, hbound, hlength⟩ := ih (some piece) hname.tail hrows
        obtain rfl := hbound piece rfl
        exact ⟨byteLen piece, fun text h => (nomatch h), by rw [hlength]; ring⟩
      | some text =>
        obtain ⟨hsame, hrows⟩ := hrows
        obtain ⟨width, hbound, hlength⟩ := ih _ hname.tail hrows
        obtain rfl := hbound text rfl
        refine ⟨byteLen text, hbound, ?_⟩
        rw [hlength, byteLen_of_eqIgnoreAsciiCase hsame]
        ring

/-- Where the slots have the width that is left for them, the loop finds the row. -/
theorem fitWidth_iff (row : Witness) {width : Nat} :
    ∀ (front tail : Str) (bound : Option Str), OneName name parts →
      byteLen tail = literalBytes parts + slotCount parts * width →
      (∀ text ∈ bound, byteLen text = width) →
      (Rows (bindingOf name bound) parts tail row ↔ ∃ bound',
        fitWidth (front ++ tail) width parts (byteLen front) bound = some bound' ∧
        row = bindingOf name bound') := by
  induction parts with
  | nil =>
    intro front tail bound _ hlength _
    have htail : tail = [] := byteLen_eq_zero_iff.mp
      (by simpa [literalBytes, slotCount] using hlength)
    unfold Rows fitWidth
    constructor
    · rintro ⟨-, rfl⟩
      exact ⟨bound, rfl, rfl⟩
    · rintro ⟨bound', h, rfl⟩
      obtain rfl := Option.some.inj h
      exact ⟨htail, rfl⟩
  | cons part parts ih =>
    intro front tail bound hname hlength hbound
    cases part with
    | literal text =>
      rw [literalBytes_literal, slotCount_literal] at hlength
      unfold Rows fitWidth
      rw [exists_piece_iff front]
      cases hhead : getText (front ++ tail) (byteLen front) (byteLen front + byteLen text) with
      | none => simp
      | some head =>
        obtain ⟨rest, rfl, hhead'⟩ := getText_front.mp hhead
        rw [byteLen_append] at hlength
        have hrest : (∃ head', some head = some head' ∧ eqIgnoreAsciiCase head' text = true ∧
            ∃ rest', head ++ rest = head' ++ rest' ∧ Rows (bindingOf name bound) parts rest' row) ↔
            eqIgnoreAsciiCase head text = true ∧ Rows (bindingOf name bound) parts rest row := by
          constructor
          · rintro ⟨head', h, hsame, rest', heq, hrows⟩
            obtain rfl := Option.some.inj h
            obtain rfl := List.append_cancel_left heq
            exact ⟨hsame, hrows⟩
          · rintro ⟨hsame, hrows⟩
            exact ⟨head, rfl, hsame, rest, rfl, hrows⟩
        rw [hrest, ih (front ++ head) rest bound hname.tail (by omega) hbound, byteLen_append,
          hhead', List.append_assoc]
        dsimp only
        split_ifs with hsame
        · exact ⟨fun h => h.2, fun h => ⟨hsame, h⟩⟩
        · simp [hsame]
    | parameter spelled range =>
      rw [literalBytes_parameter, slotCount_parameter] at hlength
      -- the next piece has the width, and it is bound or what is bound up to case
      have hslot : Rows (bindingOf name bound) (.parameter spelled range :: parts) tail row ↔
          ∃ piece rest, tail = piece ++ rest ∧ byteLen piece = width ∧
            eqIgnoreAsciiCase piece (bound.getD piece) = true ∧
              Rows (bindingOf name (some (bound.getD piece))) parts rest row := by
        rw [Rows, hname.parameter, getElem?_bindingOf]
        cases bound with
        | some text =>
          dsimp only
          constructor
          · rintro ⟨piece, rest, rfl, hsame, hrows⟩
            exact ⟨piece, rest, rfl, (byteLen_of_eqIgnoreAsciiCase hsame).trans (hbound text rfl),
              hsame, hrows⟩
          · rintro ⟨piece, rest, rfl, -, hsame, hrows⟩
            exact ⟨piece, rest, rfl, hsame, hrows⟩
        | none =>
          dsimp only
          constructor
          · rintro ⟨piece, rest, rfl, hrows⟩
            obtain ⟨other, hother, hrest⟩ := byteLen_of_rows (some piece) hname.tail hrows
            obtain rfl := hother piece rfl
            have htotal : (slotCount parts + 1) * byteLen piece =
              (slotCount parts + 1) * width := by
              rw [byteLen_append, hrest] at hlength
              have hexpand : (slotCount parts + 1) * byteLen piece =
                slotCount parts * byteLen piece + byteLen piece := by
                ring
              omega
            exact ⟨piece, rest, rfl, Nat.eq_of_mul_eq_mul_left (Nat.succ_pos _) htotal,
              eqIgnoreAsciiCase_refl piece, hrows⟩
          · rintro ⟨piece, rest, rfl, -, -, hrows⟩
            exact ⟨piece, rest, rfl, hrows⟩
      rw [hslot]
      unfold fitWidth
      cases hhead : getText (front ++ tail) (byteLen front) (byteLen front + width) with
      | none =>
        refine iff_of_false ?_ (by simp)
        rintro ⟨piece, rest, rfl, hwidth, -⟩
        rw [getText_front.mpr ⟨rest, rfl, hwidth⟩] at hhead
        cases hhead
      | some head =>
        obtain ⟨rest, rfl, hwidth⟩ := getText_front.mp hhead
        have hrest : byteLen rest = literalBytes parts + slotCount parts * width := by
          have hexpand : (slotCount parts + 1) * width = slotCount parts * width + width := by ring
          rw [byteLen_append] at hlength
          omega
        dsimp only
        split_ifs with hsame
        · have hexpected : ∀ text ∈ some (bound.getD head), byteLen text = width := by
            intro text htext
            obtain rfl := Option.mem_some_iff.mp htext
            rw [← byteLen_of_eqIgnoreAsciiCase hsame, hwidth]
          have hnext := ih (front ++ head) rest (some (bound.getD head)) hname.tail hrest hexpected
          rw [byteLen_append, hwidth, List.append_assoc] at hnext
          rw [← hnext]
          constructor
          · rintro ⟨piece, rest', heq, hpiece, -, hrows⟩
            obtain ⟨rfl, rfl⟩ := append_inj_byteLen heq (hwidth.trans hpiece.symm)
            exact hrows
          · exact fun hrows => ⟨head, rest, rfl, hwidth, hsame, hrows⟩
        · refine iff_of_false ?_ (by simp)
          rintro ⟨piece, rest', heq, hpiece, hsame', -⟩
          obtain ⟨rfl, rfl⟩ := append_inj_byteLen heq (hwidth.trans hpiece.symm)
          exact hsame hsame'

theorem fitWidth_isSome {value : Str} {width : Nat} :
    ∀ {offset : Nat} {bound bound' : Option Str}, fitWidth value width parts offset
      bound = some bound' → bound.isSome = true ∨ 0 < slotCount parts → bound'.isSome = true := by
  induction parts with
  | nil =>
    intro offset bound bound' h hsome
    obtain rfl := Option.some.inj h
    exact hsome.resolve_right (by simp [slotCount])
  | cons part parts ih =>
    intro offset bound bound' h hsome
    cases part with
    | literal text =>
      rw [slotCount_literal] at hsome
      unfold fitWidth at h
      split at h
      · cases h
      · split_ifs at h
        exact ih h hsome
    | parameter spelled range =>
      unfold fitWidth at h
      split at h
      · cases h
      · dsimp only at h
        split_ifs at h
        exact ih h (.inl rfl)

/-- The shortcut has the rows of the search. -/
theorem mem_inverseSingle_iff {value : Str} {row : Witness}
    (hname : OneName name fragments) (hslot : 0 < slotCount fragments) :
    row ∈ inverseSingle fragments value name ↔ Rows ∅ fragments value row := by
  have hrows : Rows ∅ fragments value row → literalBytes fragments ≤ byteLen value ∧
      (byteLen value - literalBytes fragments) % slotCount fragments = 0 := by
    intro h
    obtain ⟨width, -, hlength⟩ := byteLen_of_rows none hname h
    rw [hlength]
    exact ⟨Nat.le_add_right _ _, by rw [Nat.add_sub_cancel_left]; exact Nat.mul_mod_right _ _⟩
  unfold inverseSingle
  dsimp only
  split_ifs with hshort hmod
  · exact iff_of_false (Finset.notMem_empty _) fun h => absurd (hrows h).1 (Nat.not_le_of_lt hshort)
  · exact iff_of_false (Finset.notMem_empty _) fun h => hmod (hrows h).2
  · have hwidth : byteLen value = literalBytes fragments +
        slotCount fragments * ((byteLen value - literalBytes fragments) / slotCount fragments) := by
      rw [Nat.mul_div_cancel' (Nat.dvd_of_mod_eq_zero (not_not.mp hmod))]
      omega
    have hfit := fitWidth_iff row [] value none hname hwidth fun text h => (nomatch h)
    rw [List.nil_append] at hfit
    refine Iff.trans ?_ hfit.symm
    show row ∈ (match fitWidth value _ fragments 0 none with
      | none => ∅
      | some bound => _) ↔ _
    rw [byteLen_nil]
    cases hresult : fitWidth value ((byteLen value - literalBytes fragments) / slotCount fragments)
      fragments 0 none with
    | none => simp
    | some bound =>
      obtain ⟨text, rfl⟩ := Option.isSome_iff_exists.mp (fitWidth_isSome hresult (.inr hslot))
      simp [bindingOf]

/-! ## Joins -/

/-- The rows of a natural join: what two rows that agree bind, in the spelling of the right one. -/
def Joined (left right : List Witness) (row : Witness) : Prop :=
  ∃ a ∈ left, ∃ b ∈ right,
    (∀ (name text other : Str), a[name]? = some text → b[name]? = some other →
      eqIgnoreAsciiCase other text = true) ∧
    ∀ name : Str, row[name]? = (b[name]?).or (a[name]?)

theorem agrees_iff {left right : Witness} : agrees left right = true ↔ ∀ (name text other : Str),
    left[name]? = some text → right[name]? = some other → eqIgnoreAsciiCase other text = true := by
  unfold agrees
  rw [List.all_eq_true]
  constructor
  · intro h name text other hleft hright
    have hentry := h (name, text) (Std.ExtTreeMap.mem_toList_iff_getElem?_eq_some.mpr hleft)
    rw [hright] at hentry
    exact hentry
  · rintro h ⟨name, text⟩ hentry
    rw [Std.ExtTreeMap.mem_toList_iff_getElem?_eq_some] at hentry
    rw [Option.all_eq_true]
    exact fun other hother => h name text other hentry hother

theorem mem_joinRow {left : Witness} {rows : List Witness} :
    ∀ {joined : Finset Witness} {budget : SearchBudget}, rows.length ≤ budget.remaining →
    (∀ row, row ∈ (joinRow left rows joined budget).1 ↔
      row ∈ joined ∨ ∃ right ∈ rows, agrees left right = true ∧ row = left ∪ right) ∧
    (joinRow left rows joined budget).2 =
      ({ budget with remaining := budget.remaining - rows.length }, true) := by
  induction rows with
  | nil =>
    intro joined budget _
    refine ⟨fun row => ?_, rfl⟩
    simp [joinRow]
  | cons right rows ih =>
    intro joined budget hbudget
    rw [List.length_cons] at hbudget
    unfold joinRow
    rw [SearchBudget.step_eq (by omega)]
    dsimp only
    rw [if_pos rfl]
    obtain ⟨hrows, hrest⟩ := @ih (if agrees left right then
      insert (left ∪ right) joined else joined) { budget with remaining := budget.remaining - 1 }
      (by dsimp only; omega)
    refine ⟨fun row => ?_, ?_⟩
    · rw [hrows, List.exists_mem_cons_iff]
      split_ifs with hagrees
      · rw [Finset.mem_insert, or_comm (a := row = _), or_assoc]
        simp [hagrees]
      · simp [hagrees]
    · rw [hrest, List.length_cons, Nat.sub_sub, Nat.add_comm 1]

theorem mem_joinRows {right rows : List Witness} :
    ∀ {joined : Finset Witness} {budget : SearchBudget},
    rows.length * right.length ≤ budget.remaining → ∀ row,
      row ∈ (joinRows right rows joined budget).1 ↔
      row ∈ joined ∨ ∃ a ∈ rows, ∃ b ∈ right, agrees a b = true ∧ row = a ∪ b := by
  induction rows with
  | nil =>
    intro joined budget _ row
    simp [joinRows]
  | cons left rows ih =>
    intro joined budget hbudget row
    rw [List.length_cons, Nat.succ_mul] at hbudget
    obtain ⟨hrow, hrest⟩ := @mem_joinRow left right joined budget (by omega)
    unfold joinRows
    rcases hresult : joinRow left right joined budget with ⟨joined', budget', went⟩
    rw [hresult] at hrow hrest
    obtain ⟨rfl, rfl⟩ := Prod.mk.inj hrest
    dsimp only at hrow ⊢
    rw [if_pos rfl, ih (by dsimp only; omega), hrow, List.exists_mem_cons_iff, or_assoc]

/-- With a step for every pair of rows, a join is the natural join of its relations. -/
theorem mem_join_iff {left right : List Witness}
    (h : left.length * right.length ≤ budget.remaining) (row : Witness) :
    row ∈ (join left right budget).1 ↔ Joined left right row := by
  refine (mem_joinRows h row).trans ?_
  have hunion : ∀ a b : Witness, row = a ∪ b ↔ ∀ name : Str,
    row[name]? = (b[name]?).or (a[name]?) := by
    intro a b
    constructor
    · rintro rfl name
      exact Std.ExtTreeMap.getElem?_union
    · intro hrow
      refine Std.ExtTreeMap.ext_getElem? fun name => (hrow name).trans ?_
      exact Std.ExtTreeMap.getElem?_union.symm
  simp only [Finset.notMem_empty, false_or, Joined, agrees_iff, hunion]

/-! ## The relation -/

theorem oneName_of_slotNames (h : slotNames fragments = [name]) :
    OneName name fragments ∧ 0 < slotCount fragments := by
  have hmem : ∀ other, other ∈ fragments.filterMap slotName ↔ other = name := fun other => by
    rw [← List.mem_dedup]
    unfold slotNames at h
    rw [h, List.mem_singleton]
  constructor
  · intro part hpart other hother
    exact (hmem other).mp (List.mem_filterMap.mpr ⟨part, hpart, hother⟩)
  · obtain ⟨part, hpart, hname⟩ := List.mem_filterMap.mp ((hmem name).mpr rfl)
    exact List.countP_pos_iff.mpr ⟨part, hpart, by rw [hname]; rfl⟩

/-- The search alone. -/
theorem mem_inverseLoop_iff (fragments : List TemplateFragment) (value : Str) : ∃ steps,
    ∀ budget : SearchBudget,
    steps ≤ budget.remaining → ∀ row, row ∈ (inverseLoop fragments value [(0, 0, ∅)] ∅ budget).1 ↔
      Inverts fragments value row := by
  obtain ⟨rows, hrows, cost, hcost⟩ := @takes_rows fragments value fragments 0 [] value ∅
    List.drop_zero rfl
  refine ⟨cost, fun budget hbudget row => ?_⟩
  rw [byteLen_nil] at hcost
  rw [hcost _ _ _ hbudget, inverseLoop, Finset.empty_union, hrows, rows_empty_iff]

/-- With a sufficient budget `inverse` returns the assignments that spell the candidate up to ASCII
case, as the search does without the shortcut, and `join` the natural join up to ASCII case. -/
theorem relations_exact (fragments : List TemplateFragment) (value : Str) :
    (∃ steps, ∀ budget : SearchBudget, steps ≤ budget.remaining →
      (∀ row, row ∈ (inverse fragments value budget).1 ↔ Inverts fragments value row) ∧
        (inverse fragments value budget).1 = (inverseLoop fragments value [(0, 0, ∅)] ∅ budget).1) ∧
    ∀ (left right : List Witness) (budget : SearchBudget),
      left.length * right.length ≤ budget.remaining →
      ∀ row, row ∈ (join left right budget).1 ↔ Joined left right row := by
  refine ⟨?_, fun left right budget h row => mem_join_iff h row⟩
  obtain ⟨steps, hsteps⟩ := mem_inverseLoop_iff fragments value
  refine ⟨steps + 1, fun budget hbudget => ?_⟩
  have hsearch := hsteps budget (by omega)
  have hinverse : ∀ row, row ∈ (inverse fragments value budget).1 ↔
    Inverts fragments value row := by
    intro row
    unfold inverse
    split
    · rename_i name hname
      obtain ⟨hone, hslot⟩ := oneName_of_slotNames hname
      rw [SearchBudget.step_eq (by omega)]
      dsimp only
      rw [if_pos rfl, mem_inverseSingle_iff hone hslot, rows_empty_iff]
    · exact hsearch row
  refine ⟨hinverse, ?_⟩
  ext row
  rw [hinverse, hsearch]

/-- A literal of another case is taken for the same, so that rows need not spell the candidate. -/
theorem inverse_folds_case : ¬ ∀ fragments value, ∃ steps, ∀ budget : SearchBudget,
    steps ≤ budget.remaining →
    ∀ row ∈ (inverse fragments value budget).1, ∃ pieces,
      Spelled (· = ·) fragments value row pieces := by
  intro h
  obtain ⟨steps, hsteps⟩ := h [.literal ['a']] ['A']
  obtain ⟨enough, hloop⟩ := mem_inverseLoop_iff [.literal ['a']] ['A']
  have hrow : (∅ : Witness) ∈ (inverse [.literal ['a']] ['A'] ⟨steps + enough, {}⟩).1 := by
    refine (hloop ⟨steps + enough, {}⟩ (Nat.le_add_left _ _) ∅).mpr
      ⟨[['A']], rfl, .cons (show eqIgnoreAsciiCase ['A'] ['a'] = true by decide) .nil, ?_⟩
    intro name
    simp [firstPiece, slotName]
  obtain ⟨pieces, htext, hfits, -⟩ := hsteps ⟨steps + enough, {}⟩ (Nat.le_add_right _ _) ∅ hrow
  cases hfits with
  | cons hsame hfits =>
    cases hfits
    obtain rfl := hsame
    exact absurd htext (by decide)

end ParadoxCode.Hir.TemplateRelations
