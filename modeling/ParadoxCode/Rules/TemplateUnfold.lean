import ParadoxCode.Rules.TemplateProgram

/-!
# A compiled program is its template

Unfolding the arena of a compiled template from its entry gives the items back (`compile_faithful`),
but for the ranges of conditionals and of blocks, which instructions do not carry. The loop of
`compile` keeps blocks that are left for later: they are empty, apart from each other, and every
block that it adds is linked to once.
-/

namespace ParadoxCode.Rules

/-! ## Unfolding -/

/-- In place of a range that a program does not keep. -/
def noRange : TextRange := TextRange.empty 0

/-- The item of an instruction, with the items of the block that it links to. -/
def TemplateInstruction.item : (instruction : TemplateInstruction) →
    ((child : Nat) → instruction.child = some child → List TemplateItem) → TemplateItem
  | .recover token, _ => .recover token
  | .consume token, _ => .bareValue token
  | .when name negated block, items => .conditional name negated noRange (items block rfl)
  | .dispatch ⟨key, range, operator, .scalar token⟩, _ =>
      .property key range operator (.scalar token)
  | .dispatch ⟨key, range, operator, .block block⟩, items =>
    .property key range operator (.block noRange (items block rfl))

/-- The items of a block, with every link replaced by what it leads to. -/
def TemplateProgram.unfold (program : TemplateProgram) (id : Nat) : List TemplateItem :=
  (program.block id).attach.map fun ⟨instruction, h⟩ =>
    instruction.item fun child hchild =>
      have := program.below_of_mem h hchild
      program.unfold child
termination_by program.blocks.length - id
decreasing_by
  obtain ⟨hlt, hbound⟩ := program.below_of_mem h hchild
  omega

/-- An instruction with given items for its links. -/
def TemplateInstruction.fill (unfold : Nat → List TemplateItem)
    (instruction : TemplateInstruction) : TemplateItem :=
  instruction.item fun child _ => unfold child

theorem TemplateProgram.unfold_eq (program : TemplateProgram) (id : Nat) :
    program.unfold id = (program.block id).map (TemplateInstruction.fill program.unfold) := by
  rw [unfold]
  exact List.attach_map_val (f := TemplateInstruction.fill program.unfold)

mutual

/-- An item without the ranges that a program does not keep. -/
def eraseItem : TemplateItem → TemplateItem
  | .recover token => .recover token
  | .property key range operator value => .property key range operator (eraseValue value)
  | .bareValue token => .bareValue token
  | .conditional name negated _ items => .conditional name negated noRange (eraseItems items)

def eraseItems : List TemplateItem → List TemplateItem
  | [] => []
  | item :: items => eraseItem item :: eraseItems items

def eraseValue : Engine.TemplateValue TextRange → Engine.TemplateValue TextRange
  | .scalar token => .scalar token
  | .block _ items => .block noRange (eraseItems items)

end

mutual

/-- The names in the tokens and the guards of an item. -/
def itemNames : TemplateItem → Finset Str
  | .recover token => (tokenReads token).toFinset
  | .property key _ _ value => (tokenReads key).toFinset ∪ valueNames value
  | .bareValue token => (tokenReads token).toFinset
  | .conditional name _ _ items => insert name (itemsNames items)

def itemsNames : List TemplateItem → Finset Str
  | [] => ∅
  | item :: items => itemNames item ∪ itemsNames items

def valueNames : Engine.TemplateValue TextRange → Finset Str
  | .scalar token => (tokenReads token).toFinset
  | .block _ items => itemsNames items

end

/-- The links of an arena, block by block. -/
def references (blocks : List (List TemplateInstruction)) : List Nat :=
  blocks.flatMap (List.filterMap TemplateInstruction.child)

/-! ## One block -/

theorem compileItems_cons (compiled : Compiled) (item : TemplateItem) (items : List TemplateItem) :
    compileItems compiled (item :: items) =
      ((compileItems (compileItem compiled item).1 items).1,
        (compileItem compiled item).2.1 :: (compileItems (compileItem compiled item).1 items).2.1,
        (compileItems (compileItem compiled item).1 items).2.2 ++
          (compileItem compiled item).2.2.toList) := rfl

/-- The blocks that the items of one block add, which its instructions link to in order. -/
theorem compileItems_blocks (items : List TemplateItem) (compiled : Compiled) :
    ∃ more, (compileItems compiled items).1.blocks = compiled.blocks ++ List.replicate more [] ∧
      (compileItems compiled items).2.1.filterMap TemplateInstruction.child =
        List.range' compiled.blocks.length more ∧
      (compileItems compiled items).2.2.map Prod.fst =
        (List.range' compiled.blocks.length more).reverse := by
  induction items generalizing compiled with
  | nil => exact ⟨0, (List.append_nil _).symm, rfl, rfl⟩
  | cons item items ih =>
    obtain ⟨more, hblocks, hchildren, hlater⟩ := ih (compileItem compiled item).1
    have hitem : ∃ one, (compileItem compiled item).1.blocks =
      compiled.blocks ++ List.replicate one [] ∧
        (compileItem compiled item).2.1.child.toList = List.range' compiled.blocks.length one ∧
        (compileItem compiled item).2.2.toList.map Prod.fst =
          (List.range' compiled.blocks.length one).reverse := by
      cases item with
      | recover token => exact ⟨0, (List.append_nil _).symm, rfl, rfl⟩
      | bareValue token => exact ⟨0, (List.append_nil _).symm, rfl, rfl⟩
      | conditional name negated range items => exact ⟨1, rfl, rfl, rfl⟩
      | property key range operator value =>
        cases value with
        | scalar token => exact ⟨0, (List.append_nil _).symm, rfl, rfl⟩
        | block range items => exact ⟨1, rfl, rfl, rfl⟩
    obtain ⟨one, hone, hchild, hpending⟩ := hitem
    rw [hone, List.length_append, List.length_replicate] at hchildren hlater
    rw [compileItems_cons]
    refine ⟨one + more, ?_, ?_, ?_⟩
    · dsimp only
      rw [hblocks, hone, List.append_assoc, List.replicate_append_replicate]
    · dsimp only
      rw [List.filterMap_cons, ← List.range'_append_1, ← hchild, ← hchildren]
      cases (compileItem compiled item).2.1.child <;> rfl
    · dsimp only
      rw [List.map_append, hlater, hpending, ← List.range'_append_1, List.reverse_append]

/-- The instructions of a block stand for its items once what is left for later is in place. -/
theorem map_item_compileItems (unfold : Nat → List TemplateItem) (items : List TemplateItem)
    (compiled : Compiled)
    (h : ∀ pending ∈ (compileItems compiled items).2.2, unfold pending.1 = eraseItems pending.2) :
    (compileItems compiled items).2.1.map (TemplateInstruction.fill unfold) = eraseItems items := by
  induction items generalizing compiled with
  | nil => rfl
  | cons item items ih =>
    rw [compileItems_cons] at h ⊢
    dsimp only at h ⊢
    have hitems := ih (compileItem compiled item).1 fun pending hpending =>
      h pending (List.mem_append_left _ hpending)
    have hitem : ∀ pending ∈ (compileItem compiled item).2.2,
      unfold pending.1 = eraseItems pending.2 :=
      fun pending hpending => h pending (List.mem_append_right _ (Option.mem_toList.mpr hpending))
    rw [List.map_cons, hitems, eraseItems]
    congr 1
    cases item with
    | recover token => rfl
    | bareValue token => rfl
    | conditional name negated range items =>
      exact congrArg (Engine.TemplateItem.conditional name negated noRange) (hitem _ rfl)
    | property key range operator value =>
      cases value with
      | scalar token => rfl
      | block range items =>
        exact congrArg (fun items => Engine.TemplateItem.property key _ operator
          (.block noRange items)) (hitem _ rfl)

/-- The names of a block are read now or with what is left for later. -/
theorem mem_parameters_compileItems (name : Str) (items : List TemplateItem) (compiled : Compiled) :
    (name ∈ (compileItems compiled items).1.parameters ∨
      ∃ pending ∈ (compileItems compiled items).2.2, name ∈ itemsNames pending.2) ↔
      name ∈ compiled.parameters ∨ name ∈ itemsNames items := by
  induction items generalizing compiled with
  | nil => simp [compileItems, itemsNames]
  | cons item items ih =>
    have hitem : (name ∈ (compileItem compiled item).1.parameters ∨
        ∃ pending ∈ (compileItem compiled item).2.2, name ∈ itemsNames pending.2) ↔
        name ∈ compiled.parameters ∨ name ∈ itemNames item := by
      cases item with
      | recover token => simp [compileItem, itemNames, Compiled.read]
      | bareValue token => simp [compileItem, itemNames, Compiled.read]
      | conditional guard negated range items =>
        simp only [compileItem, itemNames, Compiled.reserve, Finset.mem_insert, Option.mem_def,
          Option.some.injEq, exists_eq_left']
        tauto
      | property key range operator value =>
        cases value with
        | scalar token =>
          simp only [compileItem, itemNames, valueNames, Compiled.read, Finset.mem_union,
            Option.mem_def, reduceCtorEq, false_and, exists_false, or_false]
          tauto
        | block range items =>
          simp only [compileItem, itemNames, valueNames, Compiled.read, Compiled.reserve,
            Finset.mem_union, Option.mem_def, Option.some.injEq, exists_eq_left']
          tauto
    have hitems := ih (compileItem compiled item).1
    rw [compileItems_cons, itemsNames, Finset.mem_union, ← or_assoc, ← hitem,
      or_right_comm, ← hitems]
    simp only [List.mem_append, Option.mem_toList, or_and_right, exists_or, or_assoc,
      Option.mem_def]

/-! ## The loop -/

/-- The blocks that are left for later: each once, and empty so far. -/
structure Ready (stack : List (Nat × List TemplateItem)) (compiled : Compiled) : Prop where
  nodup : (stack.map Prod.fst).Nodup
  empty : ∀ pending ∈ stack, compiled.blocks[pending.1]? = some []

/-- The arena behind one visit. -/
theorem compileVisit_blocks (compiled : Compiled) (pending : Nat × List TemplateItem) :
    ∃ more, (compileVisit.run compiled pending).1.blocks =
        (compiled.blocks ++ List.replicate more []).set pending.1
          (compileItems compiled pending.2).2.1 ∧
      (compileItems compiled pending.2).2.1.filterMap TemplateInstruction.child =
        List.range' compiled.blocks.length more ∧
      (compileVisit.run compiled pending).2.map Prod.fst =
        (List.range' compiled.blocks.length more).reverse := by
  obtain ⟨more, hblocks, hchildren, hlater⟩ := compileItems_blocks pending.2 compiled
  exact ⟨more, congrArg (fun blocks => List.set blocks _ _) hblocks, hchildren, hlater⟩

variable {compiled : Compiled} {pending : Nat × List TemplateItem}

/-- What a visit leaves for later is behind the arena so far. -/
theorem le_of_mem_compileVisit {later : Nat × List TemplateItem}
    (h : later ∈ (compileVisit.run compiled pending).2) : compiled.blocks.length ≤ later.1 := by
  obtain ⟨more, -, -, hlater⟩ := compileVisit_blocks compiled pending
  have hmem := List.mem_map_of_mem (f := Prod.fst) h
  rw [hlater, List.mem_reverse, List.mem_range'_1] at hmem
  exact hmem.1

/-- A visit leaves the other blocks as they are. -/
theorem compileVisit_getElem? {id : Nat}
    (hid : id < compiled.blocks.length) (hne : pending.1 ≠ id) :
    (compileVisit.run compiled pending).1.blocks[id]? = compiled.blocks[id]? := by
  obtain ⟨more, hblocks, -⟩ := compileVisit_blocks compiled pending
  rw [hblocks, List.getElem?_set_ne hne, List.getElem?_append_left hid]

theorem Ready.lt {stack : List (Nat × List TemplateItem)} (h : Ready stack compiled)
    (hmem : pending ∈ stack) : pending.1 < compiled.blocks.length :=
  (List.getElem?_eq_some_iff.mp (h.empty pending hmem)).1

theorem Ready.head_ne {rest : List (Nat × List TemplateItem)} (h : Ready (pending :: rest) compiled)
    {other : Nat × List TemplateItem} (hother : other ∈ rest) : pending.1 ≠ other.1 := fun heq =>
  (List.nodup_cons.mp h.nodup).1 (heq ▸ List.mem_map_of_mem hother)

theorem Ready.visit {pending : Nat × List TemplateItem} {rest : List (Nat × List TemplateItem)}
    {compiled : Compiled} (h : Ready (pending :: rest) compiled) :
    Ready ((compileVisit.run compiled pending).2 ++ rest)
      (compileVisit.run compiled pending).1 := by
  obtain ⟨more, hblocks, -, hlater⟩ := compileVisit_blocks compiled pending
  have hpending := h.lt List.mem_cons_self
  constructor
  · rw [List.map_append, hlater, List.nodup_append]
    refine ⟨List.nodup_reverse.mpr List.nodup_range', (List.nodup_cons.mp h.nodup).2, ?_⟩
    rintro id hid _ hother rfl
    obtain ⟨other, hmem, rfl⟩ := List.mem_map.mp hother
    rw [List.mem_reverse, List.mem_range'_1] at hid
    have := h.lt (List.mem_cons_of_mem _ hmem)
    omega
  · intro other hother
    rcases List.mem_append.mp hother with hnew | hold
    · -- a block that this visit reserves
      have hmem := List.mem_map_of_mem (f := Prod.fst) hnew
      rw [hlater, List.mem_reverse, List.mem_range'_1] at hmem
      rw [hblocks, List.getElem?_set_ne (by omega), List.getElem?_append_right hmem.1,
        List.getElem?_replicate_of_lt (by omega)]
    · rw [compileVisit_getElem? (h.lt (List.mem_cons_of_mem _ hold)) (h.head_ne hold)]
      exact h.empty other (List.mem_cons_of_mem _ hold)

/-- The loop leaves the blocks that are not on its stack as they are. -/
theorem drain_getElem? (stack : List (Nat × List TemplateItem)) (compiled : Compiled) {id : Nat} :
    id < compiled.blocks.length → (∀ pending ∈ stack, pending.1 ≠ id) →
      (Stack.drain compileVisit stack compiled).blocks[id]? = compiled.blocks[id]? := by
  induction stack, compiled using Stack.stack_induction compileVisit with
  | nil compiled =>
    intro _ _
    rw [Stack.drain_nil]
  | cons pending rest compiled ih =>
    intro hid hne
    rw [Stack.drain_cons, ih, compileVisit_getElem? hid (hne pending List.mem_cons_self)]
    · obtain ⟨more, hblocks, -⟩ := compileVisit_blocks compiled pending
      rw [hblocks, List.length_set, List.length_append]
      omega
    · intro other hother
      rcases List.mem_append.mp hother with hnew | hold
      · have := le_of_mem_compileVisit hnew
        omega
      · exact hne other (List.mem_cons_of_mem _ hold)

/-- In the final arena every block that was left for later unfolds to its items. -/
theorem unfold_drain (stack : List (Nat × List TemplateItem)) (compiled : Compiled)
    (program : TemplateProgram) :
    Ready stack compiled → program.blocks = (Stack.drain compileVisit stack compiled).blocks →
      ∀ pending ∈ stack, program.unfold pending.1 = eraseItems pending.2 := by
  induction stack, compiled using Stack.stack_induction compileVisit with
  | nil compiled => exact fun _ _ pending h => (nomatch h)
  | cons pending rest compiled ih =>
    intro hready hblocks
    rw [Stack.drain_cons] at hblocks
    have hlater := ih hready.visit hblocks
    rw [List.forall_mem_cons]
    refine ⟨?_, fun other hother => hlater other (List.mem_append_right _ hother)⟩
    have hpending := hready.lt List.mem_cons_self
    -- the block of the visit is written once
    have hblock : program.block pending.1 = (compileItems compiled pending.2).2.1 := by
      obtain ⟨more, hrun, -⟩ := compileVisit_blocks compiled pending
      unfold TemplateProgram.block
      rw [hblocks, drain_getElem?]
      · rw [hrun, List.getElem?_set_self (by rw [List.length_append]; omega), Option.getD_some]
      · rw [hrun, List.length_set, List.length_append]
        omega
      · intro other hother
        rcases List.mem_append.mp hother with hnew | hold
        · have := le_of_mem_compileVisit hnew
          omega
        · exact (hready.head_ne hold).symm
    rw [TemplateProgram.unfold_eq, hblock]
    exact map_item_compileItems program.unfold pending.2 compiled fun other hother =>
      hlater other (List.mem_append_left _ hother)

theorem references_append (left right : List (List TemplateInstruction)) :
    references (left ++ right) = references left ++ references right := List.flatMap_append

theorem references_replicate (more : Nat) : references (List.replicate more []) = [] := by
  rw [references, List.flatMap_eq_nil_iff]
  intro block hblock
  rw [List.eq_of_mem_replicate hblock]
  rfl

/-- An empty block that is written adds its links. -/
theorem references_set {blocks : List (List TemplateInstruction)} {id : Nat}
    (h : blocks[id]? = some []) (instructions : List TemplateInstruction) :
    (references (blocks.set id instructions)).Perm
      (references blocks ++ instructions.filterMap TemplateInstruction.child) := by
  obtain ⟨hlt, hget⟩ := List.getElem?_eq_some_iff.mp h
  have hsplit : references blocks = references (blocks.take id) ++
    references (blocks.drop (id + 1)) := by
    conv_lhs => rw [← List.take_append_drop id blocks, List.drop_eq_getElem_cons hlt, hget]
    rw [references_append]
    rfl
  rw [List.set_eq_take_append_cons_drop, if_pos hlt, references_append, hsplit, List.append_assoc]
  exact (List.perm_append_left_iff _).mpr List.perm_append_comm

/-- Every block that the loop adds is linked to once more, and no other. -/
theorem references_drain (stack : List (Nat × List TemplateItem)) (compiled : Compiled) :
    Ready stack compiled →
    ∃ more, (Stack.drain compileVisit stack compiled).blocks.length =
      compiled.blocks.length + more ∧
      (references (Stack.drain compileVisit stack compiled).blocks).Perm
        (references compiled.blocks ++ List.range' compiled.blocks.length more) := by
  induction stack, compiled using Stack.stack_induction compileVisit with
  | nil compiled =>
    intro _
    refine ⟨0, ?_, ?_⟩
    · rw [Stack.drain_nil, Nat.add_zero]
    · rw [Stack.drain_nil, List.range'_zero, List.append_nil]
  | cons pending rest compiled ih =>
    intro hready
    obtain ⟨later, hlength, hreferences⟩ := ih hready.visit
    obtain ⟨more, hblocks, hchildren, -⟩ := compileVisit_blocks compiled pending
    have hrun : (compileVisit.run compiled pending).1.blocks.length =
      compiled.blocks.length + more := by
      rw [hblocks, List.length_set, List.length_append, List.length_replicate]
    have hempty : (compiled.blocks ++ List.replicate more [])[pending.1]? = some [] := by
      rw [List.getElem?_append_left (hready.lt List.mem_cons_self)]
      exact hready.empty pending List.mem_cons_self
    have hone : (references (compileVisit.run compiled pending).1.blocks).Perm
        (references compiled.blocks ++ List.range' compiled.blocks.length more) := by
      rw [hblocks, ← hchildren]
      refine (references_set hempty _).trans ?_
      rw [references_append, references_replicate, List.append_nil]
    rw [Stack.drain_cons]
    refine ⟨more + later, by omega, ?_⟩
    rw [← List.range'_append_1, ← List.append_assoc, ← hrun]
    exact hreferences.trans (hone.append_right _)

/-- The parameters are the names of what was left for later. -/
theorem mem_parameters_drain (name : Str) (stack : List (Nat × List TemplateItem))
    (compiled : Compiled) :
    name ∈ (Stack.drain compileVisit stack compiled).parameters ↔
      name ∈ compiled.parameters ∨ ∃ pending ∈ stack, name ∈ itemsNames pending.2 := by
  induction stack, compiled using Stack.stack_induction compileVisit with
  | nil compiled => simp
  | cons pending rest compiled ih =>
    have hitems : (name ∈ (compileVisit.run compiled pending).1.parameters ∨
        ∃ other ∈ (compileVisit.run compiled pending).2, name ∈ itemsNames other.2) ↔
        name ∈ compiled.parameters ∨ name ∈ itemsNames pending.2 :=
      mem_parameters_compileItems name pending.2 compiled
    rw [Stack.drain_cons, ih]
    simp only [List.mem_append, List.mem_cons, or_and_right, exists_or, exists_eq_left, ← or_assoc]
    rw [hitems]

/-! ## The program of a template -/

theorem ready_entry (items : List TemplateItem) : Ready [(0, items)] ⟨[[]], ∅⟩ where
  nodup := List.nodup_singleton _
  empty pending h := by
    rw [List.mem_singleton.mp h]
    rfl

/-- Unfolding a compiled program gives the items of the template but for the ranges of conditionals
and of blocks. Every block except the entry is linked to once, from a block with a smaller id. The
parameters are the names of the tokens and guards. -/
theorem compile_faithful (items : List TemplateItem) :
    (TemplateProgram.compile items).unfold 0 = eraseItems items ∧
      (∀ id, 0 < id → id < (TemplateProgram.compile items).blocks.length →
        (references (TemplateProgram.compile items).blocks).count id = 1) ∧
      (∀ parent, ∀ instruction ∈ (TemplateProgram.compile items).block parent,
        ∀ id ∈ instruction.child,
        parent < id ∧ id < (TemplateProgram.compile items).blocks.length) ∧
      (TemplateProgram.compile items).parameters = itemsNames items := by
  refine ⟨?_, ?_, fun parent instruction hmem id hid => TemplateProgram.below_of_mem _ hmem hid, ?_⟩
  · exact unfold_drain _ _ (TemplateProgram.compile items) (ready_entry items) rfl _
      (List.mem_singleton_self _)
  · intro id hpos hlt
    obtain ⟨more, hlength, hreferences⟩ := references_drain _ _ (ready_entry items)
    have hcount := hreferences.count_eq id
    rw [show references [[]] = [] from rfl, List.nil_append] at hcount
    show (references (Stack.drain compileVisit [(0, items)] ⟨[[]], ∅⟩).blocks).count id = 1
    rw [hcount]
    apply List.count_eq_one_of_mem List.nodup_range'
    rw [List.mem_range'_1]
    change id < (Stack.drain compileVisit [(0, items)] ⟨[[]], ∅⟩).blocks.length at hlt
    rw [hlength] at hlt
    exact ⟨hpos, hlt⟩
  · ext name
    refine (mem_parameters_drain name _ _).trans ?_
    simp

/-- Two templates that differ in the range of a conditional. -/
def guarded (range : TextRange) : List TemplateItem := [.conditional "p".toList false range []]

/-- The items of a template cannot be computed from its program. -/
theorem compile_not_injective : ¬ ∃ unfold : TemplateProgram → List TemplateItem,
    ∀ items, unfold (TemplateProgram.compile items) = items := by
  rintro ⟨unfold, h⟩
  have hsame : TemplateProgram.compile (guarded (TextRange.empty 0)) =
      TemplateProgram.compile (guarded (TextRange.empty 1)) := by
    unfold TemplateProgram.compile guarded
    simp only [Stack.drain_cons, compileVisit, compileItems, compileItem]
  have hitems := (h (guarded (TextRange.empty 0))).symm.trans
    (hsame ▸ h (guarded (TextRange.empty 1)))
  cases hitems

end ParadoxCode.Rules
