import Mathlib.Data.Finset.Insert
import ParadoxCode.Engine.TemplateCodec
import ParadoxCode.Lib.Stack

/-!
# Template programs

`TemplateProgram` of `template.rs` in the rules crate: the flat program of a template. A child block
is an index into the arena of blocks. It is larger than the index of its parent, so that no walk
over a program comes back to a block that it is in.
-/

namespace ParadoxCode.Rules

abbrev TemplateFragment := Engine.TemplateFragment TextRange

abbrev TemplateToken := Engine.TemplateToken TextRange

abbrev TemplateItem := Engine.TemplateItem TextRange

/-! ## Instructions -/

inductive TemplateOperand where
  | scalar (token : TemplateToken)
  | block (block : Nat)
  deriving DecidableEq

structure TemplateDispatch where
  key : TemplateToken
  range : TextRange
  operator : Option Str
  value : TemplateOperand
  deriving DecidableEq

inductive TemplateInstruction where
  | recover (token : TemplateToken)
  | dispatch (property : TemplateDispatch)
  | consume (token : TemplateToken)
  | when (name : Str) (negated : Bool) (block : Nat)
  deriving DecidableEq

/-- The block that an instruction links to. -/
def TemplateInstruction.child : TemplateInstruction → Option Nat
  | .recover _ => none
  | .consume _ => none
  | .when _ _ block => some block
  | .dispatch property =>
    match property.value with
    | .scalar _ => none
    | .block block => some block

/-- Every link leads to a later block. -/
def Linked (blocks : List (List TemplateInstruction)) : Prop :=
  ∀ id instructions, blocks[id]? = some instructions → ∀ instruction ∈ instructions,
    ∀ child ∈ instruction.child, id < child ∧ child < blocks.length

structure TemplateProgram where
  blocks : List (List TemplateInstruction)
  parameters : Finset Str
  entry : 0 < blocks.length
  linked : Linked blocks

/-- `program.blocks[block]`. The blocks that a walk from the entry reaches are in bounds. -/
def TemplateProgram.block (program : TemplateProgram) (id : Nat) : List TemplateInstruction :=
  program.blocks[id]?.getD []

/-- The order in which a walk over a program goes down: to a later block of the arena. -/
def TemplateProgram.Below (program : TemplateProgram) (child parent : Nat) : Prop :=
  parent < child ∧ child < program.blocks.length

instance (program : TemplateProgram) : IsWellFounded Nat program.Below where
  wf := by
    apply Subrelation.wf (r := InvImage (· < ·) fun id => program.blocks.length - id)
    · intro child parent h
      show program.blocks.length - child < program.blocks.length - parent
      have hparent := h.1
      have hchild := h.2
      omega
    · exact InvImage.wf _ Nat.lt_wfRel.wf

theorem TemplateProgram.below_of_mem (program : TemplateProgram) {id child : Nat}
    {instruction : TemplateInstruction} (h : instruction ∈ program.block id)
    (hchild : instruction.child = some child) : program.Below child id := by
  unfold block at h
  cases hid : program.blocks[id]? with
  | none =>
    rw [hid] at h
    cases h
  | some instructions =>
    rw [hid] at h
    exact program.linked id instructions hid instruction h child hchild

/-! ## Compilation -/

/-- The parameters that a token reads. -/
def tokenReads (token : TemplateToken) : List Str :=
  token.fragments.filterMap fun
    | .parameter name _ => some name
    | .literal _ => none

/-- The program so far. -/
structure Compiled where
  blocks : List (List TemplateInstruction)
  parameters : Finset Str

def Compiled.read (compiled : Compiled) (token : TemplateToken) : Compiled :=
  { compiled with parameters := compiled.parameters ∪ (tokenReads token).toFinset }

/-- A new block, empty so far. -/
def Compiled.reserve (compiled : Compiled) : Compiled :=
  { compiled with blocks := compiled.blocks ++ [[]] }

/-- One round of the loop over the items of a block: the instruction and the block it leaves for
later. -/
def compileItem (compiled : Compiled) : TemplateItem →
    Compiled × TemplateInstruction × Option (Nat × List TemplateItem)
  | .recover token => (compiled.read token, .recover token, none)
  | .bareValue token => (compiled.read token, .consume token, none)
  | .conditional name negated _ items =>
    let block := compiled.blocks.length
    ({ compiled with parameters := insert name compiled.parameters }.reserve,
      .when name negated block, some (block, items))
  | .property key range operator (.scalar token) =>
    ((compiled.read key).read token, .dispatch ⟨key, range, operator, .scalar token⟩, none)
  | .property key range operator (.block _ items) =>
    let block := compiled.blocks.length
    ((compiled.read key).reserve, .dispatch ⟨key, range, operator, .block block⟩,
      some (block, items))

/-- The items of a block in order, with the blocks left for later, the last on top. -/
def compileItems : Compiled → List TemplateItem →
    Compiled × List TemplateInstruction × List (Nat × List TemplateItem)
  | compiled, [] => (compiled, [], [])
  | compiled, item :: items =>
    let (compiled, instruction, pending) := compileItem compiled item
    let (compiled, instructions, later) := compileItems compiled items
    (compiled, instruction :: instructions, later ++ pending.toList)

theorem sizeOf_compileItem {compiled : Compiled} {item : TemplateItem}
    {pending : Nat × List TemplateItem}
    (h : pending ∈ (compileItem compiled item).2.2) : sizeOf pending.2 < sizeOf item := by
  cases item with
  | recover token => cases h
  | bareValue token => cases h
  | conditional name negated range items =>
    obtain rfl := Option.some.inj h
    simp only [Engine.TemplateItem.conditional.sizeOf_spec]
    omega
  | property key range operator value =>
    cases value with
    | scalar token => cases h
    | block range items =>
      obtain rfl := Option.some.inj h
      simp only [Engine.TemplateItem.property.sizeOf_spec, Engine.TemplateValue.block.sizeOf_spec]
      omega

theorem sizeOf_compileItems (items : List TemplateItem) (compiled : Compiled) :
    ∀ pending ∈ (compileItems compiled items).2.2, sizeOf pending.2 < sizeOf items := by
  induction items generalizing compiled with
  | nil =>
    intro pending h
    cases h
  | cons item items ih =>
    intro pending h
    rw [List.cons.sizeOf_spec]
    rcases List.mem_append.mp h with h | h
    · have := ih (compileItem compiled item).1 pending h
      omega
    · have := sizeOf_compileItem (Option.mem_toList.mp h)
      omega

/-- The loop over the blocks that are left for later. -/
def compileVisit : Stack.Visit (InvImage (· < ·) fun pending : Nat × List TemplateItem =>
    sizeOf pending.2) Compiled where
  run compiled pending :=
    let (compiled, instructions, later) := compileItems compiled pending.2
    ({ compiled with blocks := compiled.blocks.set pending.1 instructions }, later)
  below compiled pending := sizeOf_compileItems pending.2 compiled

/-! ### The links of a compiled program -/

/-- What a round adds: empty blocks, which the links of its instructions and what is left for later
are about. -/
structure Compiled.Extends (before after : Compiled) (links : List Nat) : Prop where
  blocks : ∃ more, after.blocks = before.blocks ++ List.replicate more []
  links : ∀ link ∈ links, before.blocks.length ≤ link ∧ link < after.blocks.length

theorem Compiled.Extends.length_le {before after : Compiled} {links : List Nat}
    (h : before.Extends after links) : before.blocks.length ≤ after.blocks.length := by
  obtain ⟨more, hmore⟩ := h.blocks
  rw [hmore, List.length_append]
  exact Nat.le_add_right _ _

theorem Compiled.Extends.trans {a b c : Compiled} {links more : List Nat} (h : a.Extends b links)
    (h' : b.Extends c more) : a.Extends c (links ++ more) where
  blocks := by
    obtain ⟨k, hk⟩ := h.blocks
    obtain ⟨l, hl⟩ := h'.blocks
    refine ⟨k + l, ?_⟩
    rw [hl, hk, List.append_assoc, List.replicate_append_replicate]
  links link hlink := by
    have hab := h.length_le
    have hbc := h'.length_le
    rcases List.mem_append.mp hlink with hlink | hlink
    · have := h.links link hlink
      omega
    · have := h'.links link hlink
      omega

/-- A round that adds no block. -/
theorem Compiled.extends_read {before after : Compiled} (h : after.blocks = before.blocks) :
    before.Extends after [] where
  blocks := ⟨0, by rw [h, List.replicate_zero, List.append_nil]⟩
  links := by
    intro link hlink
    cases hlink

/-- A round that adds one block and links to it. -/
theorem Compiled.extends_reserve {before after : Compiled}
    (h : after.blocks = before.blocks ++ [[]]) : before.Extends after [before.blocks.length] where
  blocks := ⟨1, h⟩
  links := by
    intro link hlink
    obtain rfl := List.mem_singleton.mp hlink
    rw [h, List.length_append, List.length_singleton]
    omega

/-- The links of an instruction and of what is left for later. -/
theorem compileItem_extends (compiled : Compiled) (item : TemplateItem) :
    compiled.Extends (compileItem compiled item).1 (compileItem compiled item).2.1.child.toList ∧
      (compileItem compiled item).2.2.map Prod.fst = (compileItem compiled item).2.1.child := by
  cases item with
  | recover token => exact ⟨Compiled.extends_read rfl, rfl⟩
  | bareValue token => exact ⟨Compiled.extends_read rfl, rfl⟩
  | conditional name negated range items => exact ⟨Compiled.extends_reserve rfl, rfl⟩
  | property key range operator value =>
    cases value with
    | scalar token => exact ⟨Compiled.extends_read rfl, rfl⟩
    | block range items => exact ⟨Compiled.extends_reserve rfl, rfl⟩

theorem compileItems_extends (items : List TemplateItem) (compiled : Compiled) :
    compiled.Extends (compileItems compiled items).1
        ((compileItems compiled items).2.1.filterMap TemplateInstruction.child) ∧
      ∀ pending ∈ (compileItems compiled items).2.2,
        pending.1 ∈ (compileItems compiled items).2.1.filterMap TemplateInstruction.child := by
  induction items generalizing compiled with
  | nil =>
    refine ⟨Compiled.extends_read rfl, ?_⟩
    intro pending h
    cases h
  | cons item items ih =>
    obtain ⟨hitem, hpending⟩ := compileItem_extends compiled item
    obtain ⟨hitems, hlater⟩ := ih (compileItem compiled item).1
    have hlinks : ((compileItem compiled item).2.1 ::
        (compileItems (compileItem compiled item).1 items).2.1).filterMap
          TemplateInstruction.child =
        (compileItem compiled item).2.1.child.toList ++
          (compileItems (compileItem compiled item).1 items).2.1.filterMap
            TemplateInstruction.child := by
      cases h : (compileItem compiled item).2.1.child with
      | none => rw [List.filterMap_cons_none h, Option.toList_none, List.nil_append]
      | some child => rw [List.filterMap_cons_some h, Option.toList_some, List.singleton_append]
    refine ⟨?_, ?_⟩
    · show compiled.Extends _ (((compileItem compiled item).2.1 ::
        (compileItems (compileItem compiled item).1 items).2.1).filterMap TemplateInstruction.child)
      rw [hlinks]
      exact hitem.trans hitems
    · intro pending h
      show pending.1 ∈ ((compileItem compiled item).2.1 ::
        (compileItems (compileItem compiled item).1 items).2.1).filterMap TemplateInstruction.child
      rw [hlinks]
      rcases List.mem_append.mp h with h | h
      · exact List.mem_append_right _ (hlater pending h)
      · apply List.mem_append_left
        rw [← hpending]
        have hsome : (compileItem compiled item).2.2 = some pending := Option.mem_toList.mp h
        rw [hsome]
        exact List.mem_singleton_self _

theorem Linked.append_replicate {blocks : List (List TemplateInstruction)} (h : Linked blocks)
    (more : Nat) : Linked (blocks ++ List.replicate more []) := by
  intro id instructions hid instruction hinstruction child hchild
  rw [List.length_append]
  by_cases hlt : id < blocks.length
  · rw [List.getElem?_append_left hlt] at hid
    have := h id instructions hid instruction hinstruction child hchild
    omega
  · rw [List.getElem?_append_right (by omega)] at hid
    obtain rfl := List.eq_of_mem_replicate (List.mem_of_getElem? hid)
    cases hinstruction

theorem Linked.set {blocks : List (List TemplateInstruction)} (h : Linked blocks) {id : Nat}
    {instructions : List TemplateInstruction} (hlinks : ∀ instruction ∈ instructions,
      ∀ child ∈ instruction.child, id < child ∧ child < blocks.length) :
    Linked (blocks.set id instructions) := by
  intro other others hother instruction hinstruction child hchild
  rw [List.length_set]
  by_cases hid : id = other
  · subst hid
    obtain ⟨-, rfl⟩ : id < blocks.length ∧ instructions = others := by
      rw [List.getElem?_set_self'] at hother
      cases hblock : blocks[id]? with
      | none =>
        rw [hblock] at hother
        cases hother
      | some block =>
        rw [hblock] at hother
        exact ⟨(List.getElem?_eq_some_iff.mp hblock).1, Option.some.inj hother⟩
    exact hlinks instruction hinstruction child hchild
  · rw [List.getElem?_set_ne hid] at hother
    exact h other others hother instruction hinstruction child hchild

/-- Every block that is left for later is in the arena, and every link leads to a later block. -/
theorem linked_compile (stack : List (Nat × List TemplateItem)) (compiled : Compiled)
    (h : Linked compiled.blocks) (hentry : 0 < compiled.blocks.length)
    (hstack : ∀ pending ∈ stack, pending.1 < compiled.blocks.length) :
    0 < (Stack.drain compileVisit stack compiled).blocks.length ∧
      Linked (Stack.drain compileVisit stack compiled).blocks := by
  induction stack, compiled using Stack.stack_induction compileVisit with
  | nil compiled =>
    rw [Stack.drain_nil]
    exact ⟨hentry, h⟩
  | cons pending rest compiled ih =>
    obtain ⟨hitems, hlater⟩ := compileItems_extends pending.2 compiled
    have hlength := hitems.length_le
    obtain ⟨more, hmore⟩ := hitems.blocks
    have hpending := hstack pending List.mem_cons_self
    rw [Stack.drain_cons]
    apply ih
    · apply Linked.set
      · rw [hmore]
        exact h.append_replicate more
      · intro instruction hinstruction child hchild
        have := hitems.links child (List.mem_filterMap.mpr ⟨instruction, hinstruction, hchild⟩)
        omega
    · show 0 < (List.set _ _ _).length
      rw [List.length_set]
      omega
    · intro other hother
      show other.1 < (List.set _ _ _).length
      rw [List.length_set]
      rcases List.mem_append.mp hother with hother | hother
      · exact (hitems.links other.1 (hlater other hother)).2
      · have := hstack other (List.mem_cons_of_mem _ hother)
        omega

/-- `TemplateProgram::compile`. -/
def TemplateProgram.compile (items : List TemplateItem) : TemplateProgram :=
  let compiled := Stack.drain compileVisit [(0, items)] ⟨[[]], ∅⟩
  have h := linked_compile [(0, items)] ⟨[[]], ∅⟩ (by
      intro id instructions hid instruction hinstruction
      rw [List.eq_of_mem_singleton (List.mem_of_getElem? hid)] at hinstruction
      cases hinstruction) Nat.zero_lt_one (by
      intro pending hpending
      rw [List.mem_singleton.mp hpending]
      exact Nat.zero_lt_one)
  ⟨compiled.blocks, compiled.parameters, h.1, h.2⟩

end ParadoxCode.Rules
