import Mathlib.Logic.Relation
import ParadoxCode.Hir.RenderExpanded

/-!
# Reads under no guard

`unconditional_reads` of a program against `require_program`, the walk that looks the parameters of
a call up. The summary goes down to the blocks that no guard is in front of
(`mem_unconditionalReads_iff`). A walk that its budget does not end looks all of their parameters
up, whatever is present and bound, except those of recovered syntax, which it reports as a limit
(`unconditionalReads_read`).
-/

namespace ParadoxCode.Hir

open Rules

/-- Whether a guard is met. -/
def guardMet (present : Finset Str) (name : Str) (negated : Bool) : Bool :=
  decide (toAsciiLowercase name ∈ present) != negated

/-- `Environment`. -/
abbrev Environment : Type := Std.ExtTreeMap Str (List TemplateFragment)

def substituteFragment (env : Environment) (fragment : TemplateFragment) : List TemplateFragment :=
  match fragment with
  | .parameter name _ => env[toAsciiLowercase name]?.getD [fragment]
  | .literal _ => [fragment]

/-! ## The summary -/

/-- The parameters of a token in lower case. -/
def foldedReads (token : TemplateToken) : Finset Str :=
  ((tokenReads token).map toAsciiLowercase).toFinset

/-- What an instruction adds, and the block that it leaves for later. -/
def unconditionalInstruction (result : Finset Str) : TemplateInstruction → Finset Str × Option Nat
  | .when _ _ _ => (result, none)
  | .recover token => (result ∪ foldedReads token, none)
  | .consume token => (result ∪ foldedReads token, none)
  | .dispatch property =>
    match property.value with
    | .scalar token => (result ∪ foldedReads property.key ∪ foldedReads token, none)
    | .block block => (result ∪ foldedReads property.key, some block)

/-- The instructions of a block in order, with the blocks left for later, the last on top. -/
def unconditionalBlock : Finset Str → List TemplateInstruction → Finset Str × List Nat
  | result, [] => (result, [])
  | result, instruction :: instructions =>
    let (result, pending) := unconditionalInstruction result instruction
    let (result, later) := unconditionalBlock result instructions
    (result, later ++ pending.toList)

/-- The block of a field that is one. -/
def containerOf : TemplateInstruction → Option Nat
  | .dispatch property =>
    match property.value with
    | .scalar _ => none
    | .block block => some block
  | _ => none

variable {instruction : TemplateInstruction}

theorem child_of_containerOf {block : Nat}
    (h : containerOf instruction = some block) : instruction.child = some block := by
  cases instruction with
  | dispatch property => exact h
  | _ => cases h

theorem unconditionalInstruction_snd (result : Finset Str) (instruction : TemplateInstruction) :
    (unconditionalInstruction result instruction).2 = containerOf instruction := by
  cases instruction with
  | dispatch property =>
    unfold unconditionalInstruction containerOf
    dsimp only
    split <;> rfl
  | _ => rfl

variable {result : Finset Str} {instructions : List TemplateInstruction}

theorem mem_unconditionalBlock_snd {block : Nat} :
    block ∈ (unconditionalBlock result instructions).2 ↔
      ∃ instruction ∈ instructions, containerOf instruction = some block := by
  induction instructions generalizing result with
  | nil => simp [unconditionalBlock]
  | cons instruction instructions ih =>
    unfold unconditionalBlock
    dsimp only
    rw [List.mem_append, ih, unconditionalInstruction_snd, Option.mem_toList, or_comm,
      List.exists_mem_cons_iff]

def unconditionalVisit (program : TemplateProgram) : Stack.Visit program.Below (Finset Str) where
  run result block := unconditionalBlock result (program.block block)
  below result block child h := by
    obtain ⟨instruction, hmem, hchild⟩ := mem_unconditionalBlock_snd.mp h
    exact program.below_of_mem hmem (child_of_containerOf hchild)

/-- `unconditional_reads`. No checkpoint ends it, and the links of a program are in bounds. -/
def unconditionalReads (program : TemplateProgram) : Finset Str :=
  Stack.drain (unconditionalVisit program) [0] ∅

/-! ## What it reports -/

/-- The tokens of an instruction that is no guard. -/
def tokensOf : TemplateInstruction → List TemplateToken
  | .when _ _ _ => []
  | .recover token => [token]
  | .consume token => [token]
  | .dispatch property =>
    match property.value with
    | .scalar token => [property.key, token]
    | .block _ => [property.key]

/-- A field of one block holds another block. -/
def Holds (program : TemplateProgram) (parent child : Nat) : Prop :=
  ∃ instruction ∈ program.block parent, containerOf instruction = some child

/-- A block that no guard is in front of. -/
def Unguarded (program : TemplateProgram) (block : Nat) : Prop :=
  Relation.ReflTransGen (Holds program) 0 block

variable {name : Str}

theorem mem_unconditionalInstruction_fst :
    name ∈ (unconditionalInstruction result instruction).1 ↔
      name ∈ result ∨ ∃ token ∈ tokensOf instruction, name ∈ foldedReads token := by
  cases instruction with
  | when guard negated block => simp [unconditionalInstruction, tokensOf]
  | recover token => simp [unconditionalInstruction, tokensOf]
  | consume token => simp [unconditionalInstruction, tokensOf]
  | dispatch property =>
    unfold unconditionalInstruction tokensOf
    dsimp only
    split <;> simp

theorem mem_unconditionalBlock_fst :
    name ∈ (unconditionalBlock result instructions).1 ↔
      name ∈ result ∨ ∃ instruction ∈ instructions, ∃ token ∈ tokensOf instruction,
        name ∈ foldedReads token := by
  induction instructions generalizing result with
  | nil => simp [unconditionalBlock]
  | cons instruction instructions ih =>
    unfold unconditionalBlock
    dsimp only
    rw [ih, mem_unconditionalInstruction_fst, or_assoc, List.exists_mem_cons_iff]

theorem mem_drain_unconditionalVisit {program : TemplateProgram} (stack : List Nat)
    (result : Finset Str) :
    name ∈ Stack.drain (unconditionalVisit program) stack result ↔ name ∈ result ∨
      ∃ start ∈ stack, ∃ block, Relation.ReflTransGen (Holds program) start block ∧
        ∃ instruction ∈ program.block block, ∃ token ∈ tokensOf instruction,
          name ∈ foldedReads token := by
  induction stack, result using Stack.stack_induction (unconditionalVisit program) with
  | nil result => simp
  | cons start rest result ih =>
    rw [Stack.drain_cons, ih]
    have hpushed : ∀ block, block ∈ ((unconditionalVisit program).run result start).2 ↔
      Holds program start block :=
      fun block => mem_unconditionalBlock_snd
    have hread : name ∈ ((unconditionalVisit program).run result start).1 ↔
      _ := mem_unconditionalBlock_fst
    rw [hread, List.exists_mem_cons_iff]
    constructor
    · rintro ((h | h) | ⟨next, hnext, block, hpath, h⟩)
      · exact .inl h
      · exact .inr (.inl ⟨start, .refl, h⟩)
      · rcases List.mem_append.mp hnext with hnext | hnext
        · exact .inr (.inl ⟨block, .head ((hpushed next).mp hnext) hpath, h⟩)
        · exact .inr (.inr ⟨next, hnext, block, hpath, h⟩)
    · rintro (h | ⟨block, hpath, h⟩ | ⟨next, hnext, block, hpath, h⟩)
      · exact .inl (.inl h)
      · rcases Relation.ReflTransGen.cases_head hpath with rfl | ⟨next, hnext, hpath⟩
        · exact .inl (.inr h)
        · exact .inr ⟨next, List.mem_append_left _ ((hpushed next).mpr hnext), block, hpath, h⟩
      · exact .inr ⟨next, List.mem_append_right _ hnext, block, hpath, h⟩

/-- The summary reports the names that instructions under no guard read. -/
theorem mem_unconditionalReads_iff {program : TemplateProgram} :
    name ∈ unconditionalReads program ↔ ∃ block, Unguarded program block ∧
      ∃ instruction ∈ program.block block, ∃ token ∈ tokensOf instruction,
        name ∈ foldedReads token := by
  refine (mem_drain_unconditionalVisit [0] ∅).trans ?_
  simp [Unguarded]

/-! ## The walk of a call -/

/-- The state of a walk. -/
structure Requirement where
  budget : Nat
  coverage : AnalysisCoverage
  missing : Finset Str
  /-- The names that were looked up, in lower case. Nothing depends on them. -/
  reads : Finset Str

def Requirement.limit (state : Requirement) (reason : AnalysisLimit) : Requirement :=
  { state with coverage := state.coverage.limit reason }

section Walk

variable (env : Environment) (active : Finset Str)

/-- The names of the parameters among fragments. -/
def parameterNames (fragments : List TemplateFragment) : Finset Str :=
  (fragments.filterMap fun
    | .parameter name _ => some name
    | .literal _ => none).toFinset

/-- `required_token`, over the fragments of a token. -/
def requiredToken : Requirement → List TemplateFragment → Requirement
  | state, [] => state
  | state, part :: parts =>
    if state.budget = 0 then state.limit .nodes
    else
      let state := { state with budget := state.budget - 1 }
      match part with
      | .literal _ => requiredToken state parts
      | .parameter name range =>
        let state := { state with reads := insert (toAsciiLowercase name) state.reads }
        if toAsciiLowercase name ∈ active then requiredToken state parts
        else requiredToken
          { state with
            missing := state.missing ∪
              parameterNames (substituteFragment env (.parameter name range)) } parts

/-- An instruction of `require_program`, with the block that it leaves for later. -/
def requireInstruction (allBranches : Bool) (state : Requirement) : TemplateInstruction →
    Requirement × Option Nat
  | .recover _ => (state.limit .structuralRecovery, none)
  | .consume token => (requiredToken env active state token.fragments, none)
  | .when name negated block => (state, if allBranches || guardMet active name negated then
      some block else none)
  | .dispatch property =>
    let state := requiredToken env active state property.key.fragments
    match property.value with
    | .scalar token => (requiredToken env active state token.fragments, none)
    | .block block => (state, some block)

/-- The instructions of a block. The last component is `true` where the walk ends in the block. -/
def requireBlock (allBranches : Bool) : Requirement → List TemplateInstruction →
    Requirement × List Nat × Bool
  | state, [] => (state, [], false)
  | state, instruction :: instructions =>
    if state.budget = 0 then (state.limit .nodes, [], true)
    else
      let (state, pending) := requireInstruction env active allBranches
        { state with budget := state.budget - 1 } instruction
      let (state, later, stopped) := requireBlock allBranches state instructions
      (state, later ++ pending.toList, stopped)

end Walk

theorem child_of_requireInstruction {env : Environment} {active : Finset Str} {allBranches : Bool}
    {state : Requirement} {block : Nat}
    (h : (requireInstruction env active allBranches state instruction).2 = some block) :
    instruction.child = some block := by
  cases instruction with
  | recover token => cases h
  | consume token => cases h
  | «when» name negated child =>
    dsimp only [requireInstruction] at h
    split_ifs at h
    exact h
  | dispatch property =>
    unfold requireInstruction at h
    unfold TemplateInstruction.child
    dsimp only at h ⊢
    cases hvalue : property.value with
    | scalar token =>
      rw [hvalue] at h
      cases h
    | block child =>
      rw [hvalue] at h
      exact h

theorem child_of_requireBlock {env : Environment} {active : Finset Str} {allBranches : Bool}
    {block : Nat} : ∀ {state : Requirement},
    block ∈ (requireBlock env active allBranches state instructions).2.1 →
      ∃ instruction ∈ instructions, instruction.child = some block := by
  induction instructions with
  | nil => exact fun h => (nomatch h)
  | cons instruction instructions ih =>
    intro state h
    unfold requireBlock at h
    split_ifs at h
    · cases h
    · rcases List.mem_append.mp h with h | h
      · obtain ⟨other, hother, hchild⟩ := ih h
        exact ⟨other, List.mem_cons_of_mem _ hother, hchild⟩
      · exact ⟨instruction, List.mem_cons_self, child_of_requireInstruction
          (Option.mem_toList.mp h)⟩

/-- The loop of `require_program`. A walk that has ended takes the rest of the stack without a
look. -/
def requireVisit (program : TemplateProgram) (env : Environment) (active : Finset Str)
    (allBranches : Bool) : Stack.Visit program.Below (Requirement × Bool) where
  run state block :=
    if state.2 then (state, [])
    else
      let (next, later, stopped) := requireBlock env active allBranches state.1
        (program.block block)
      ((next, stopped), if stopped then [] else later)
  below state block child h := by
    split_ifs at h
    · cases h
    · dsimp only at h
      split_ifs at h
      · cases h
      · obtain ⟨instruction, hmem, hchild⟩ := child_of_requireBlock h
        exact program.below_of_mem hmem hchild

/-- `require_program`. -/
def requireProgram (program : TemplateProgram) (env : Environment) (active : Finset Str)
    (allBranches : Bool) (state : Requirement) : Requirement :=
  (Stack.drain (requireVisit program env active allBranches) [0] (state, false)).1

/-! ## What a walk reads -/

/-- A later state of a walk. -/
structure Requirement.Grows (before after : Requirement) : Prop where
  limits : before.coverage.limits ⊆ after.coverage.limits
  reads : before.reads ⊆ after.reads

namespace Requirement.Grows

theorem refl (state : Requirement) : state.Grows state := ⟨subset_rfl, subset_rfl⟩

theorem trans {a b c : Requirement} (hab : a.Grows b) (hbc : b.Grows c) : a.Grows c :=
  ⟨hab.limits.trans hbc.limits, hab.reads.trans hbc.reads⟩

theorem limit (state : Requirement) (reason : AnalysisLimit) : state.Grows (state.limit reason) :=
  ⟨Finset.subset_insert _ _, subset_rfl⟩

theorem nodes {before after : Requirement} (h : before.Grows after)
    (hnodes : .nodes ∉ after.coverage.limits) :
    .nodes ∉ before.coverage.limits := fun hbefore => hnodes (h.limits hbefore)

end Requirement.Grows

theorem nodes_mem_limit (state : Requirement) : .nodes ∈ (state.limit .nodes).coverage.limits :=
  Finset.mem_insert_self _ _

variable {program : TemplateProgram} {env : Environment} {active : Finset Str} {allBranches : Bool}

theorem grows_requiredToken (parts : List TemplateFragment) : ∀ state : Requirement,
    state.Grows (requiredToken env active state parts) := by
  induction parts with
  | nil => exact Requirement.Grows.refl
  | cons part parts ih =>
    intro state
    unfold requiredToken
    split_ifs with hbudget
    · exact Requirement.Grows.limit _ _
    cases part with
    | literal text =>
      refine Requirement.Grows.trans ?_ (ih _)
      exact ⟨subset_rfl, subset_rfl⟩
    | parameter name range =>
      dsimp only
      split_ifs
      · refine Requirement.Grows.trans ?_ (ih _)
        exact ⟨subset_rfl, Finset.subset_insert _ _⟩
      · refine Requirement.Grows.trans ?_ (ih _)
        exact ⟨subset_rfl, Finset.subset_insert _ _⟩

/-- A token that the budget does not end looks all its parameters up. -/
theorem read_requiredToken {range : TextRange} (parts : List TemplateFragment) :
    ∀ state : Requirement,
    .nodes ∉ (requiredToken env active state parts).coverage.limits →
      .parameter name range ∈ parts →
      toAsciiLowercase name ∈ (requiredToken env active state parts).reads := by
  induction parts with
  | nil => exact fun state _ h => (nomatch h)
  | cons part parts ih =>
    intro state hnodes hmem
    unfold requiredToken at hnodes ⊢
    split_ifs at hnodes ⊢ with hbudget
    · exact absurd (nodes_mem_limit state) hnodes
    cases part with
    | literal text =>
      have hrest := (List.mem_cons.mp hmem).resolve_left (fun h => (nomatch h))
      exact ih _ hnodes hrest
    | parameter other place =>
      dsimp only at hnodes ⊢
      -- the first one is looked up here, and a later state keeps it
      rcases List.mem_cons.mp hmem with heq | hrest
      · cases heq
        split_ifs at hnodes ⊢ <;> exact (grows_requiredToken parts _).reads
          (Finset.mem_insert_self _ _)
      · split_ifs at hnodes ⊢ <;> exact ih _ hnodes hrest

theorem read_of_foldedReads {token : TemplateToken} (h : name ∈ foldedReads token)
    (state : Requirement)
    (hnodes : .nodes ∉ (requiredToken env active state token.fragments).coverage.limits) :
    name ∈ (requiredToken env active state token.fragments).reads := by
  unfold foldedReads at h
  rw [List.mem_toFinset, List.mem_map] at h
  obtain ⟨spelled, hspelled, rfl⟩ := h
  obtain ⟨fragment, hmem, hfragment⟩ := List.mem_filterMap.mp hspelled
  cases fragment with
  | literal text => cases hfragment
  | parameter other range =>
    cases hfragment
    exact read_requiredToken token.fragments state hnodes hmem

theorem grows_requireInstruction (state : Requirement) (instruction : TemplateInstruction) :
    state.Grows (requireInstruction env active allBranches state instruction).1 := by
  cases instruction with
  | recover token => exact Requirement.Grows.limit _ _
  | consume token => exact grows_requiredToken _ _
  | «when» name negated block => exact Requirement.Grows.refl _
  | dispatch property =>
    unfold requireInstruction
    dsimp only
    cases property.value with
    | scalar token => exact (grows_requiredToken _ _).trans (grows_requiredToken _ _)
    | block block => exact grows_requiredToken _ _

/-- Whether an instruction is recovered syntax. -/
def isRecover : TemplateInstruction → Prop
  | .recover _ => True
  | _ => False

/-- What an instruction leaves behind in a walk that goes on. -/
structure Visited (state : Requirement) (later : List Nat)
    (instruction : TemplateInstruction) : Prop where
  reads : ¬ isRecover instruction → ∀ token ∈ tokensOf instruction, ∀ name ∈ foldedReads token,
    name ∈ state.reads
  recovered : isRecover instruction → .structuralRecovery ∈ state.coverage.limits
  child : ∀ block, containerOf instruction = some block → block ∈ later

theorem Visited.mono {state next : Requirement} {later more : List Nat}
    (h : Visited state later instruction) (hgrows : state.Grows next) (hlater : later ⊆ more) :
    Visited next more instruction where
  reads hnot token htoken name hname := hgrows.reads (h.reads hnot token htoken name hname)
  recovered hrecover := hgrows.limits (h.recovered hrecover)
  child block hblock := hlater (h.child block hblock)

theorem visited_requireInstruction (state : Requirement) (instruction : TemplateInstruction)
    (hnodes : .nodes ∉ (requireInstruction env active allBranches state
      instruction).1.coverage.limits) :
    Visited (requireInstruction env active allBranches state instruction).1
      (requireInstruction env active allBranches state instruction).2.toList instruction := by
  cases instruction with
  | recover token =>
    exact ⟨fun h => absurd trivial h, fun _ => Finset.mem_insert_self _ _,
      fun block h => (nomatch h)⟩
  | consume token =>
    refine ⟨fun _ other hother name hname => ?_, fun h => h.elim, fun block h => (nomatch h)⟩
    obtain rfl := List.mem_singleton.mp hother
    exact read_of_foldedReads hname state hnodes
  | «when» name negated block =>
    exact ⟨fun _ token htoken => (nomatch htoken), fun h => h.elim, fun block h => (nomatch h)⟩
  | dispatch property =>
    obtain ⟨key, range, operator, value⟩ := property
    cases value with
    | scalar token =>
      refine ⟨fun _ other hother name hname => ?_, fun h => h.elim, fun block h => (nomatch h)⟩
      have hgrows : (requiredToken env active state key.fragments).Grows
          (requiredToken env active (requiredToken env active state key.fragments)
            token.fragments) :=
        grows_requiredToken token.fragments _
      rcases List.mem_cons.mp hother with rfl | hother
      · exact hgrows.reads (read_of_foldedReads hname state (hgrows.nodes hnodes))
      · obtain rfl := List.mem_singleton.mp hother
        exact read_of_foldedReads hname _ hnodes
    | block child =>
      refine ⟨fun _ other hother name hname => ?_, fun h => h.elim, fun block h => ?_⟩
      · obtain rfl := List.mem_singleton.mp hother
        exact read_of_foldedReads hname state hnodes
      · obtain rfl := Option.some.inj h
        exact List.mem_singleton_self _

theorem grows_requireBlock (instructions : List TemplateInstruction) : ∀ state : Requirement,
    state.Grows (requireBlock env active allBranches state instructions).1 := by
  induction instructions with
  | nil => exact Requirement.Grows.refl
  | cons instruction instructions ih =>
    intro state
    unfold requireBlock
    split_ifs with hbudget
    · exact Requirement.Grows.limit _ _
    · refine Requirement.Grows.trans ?_ (ih _)
      refine Requirement.Grows.trans ?_ (grows_requireInstruction _ instruction)
      exact ⟨subset_rfl, subset_rfl⟩

/-- A block that the budget does not end is walked to its end. -/
theorem visited_requireBlock (instructions : List TemplateInstruction) : ∀ state : Requirement,
    .nodes ∉ (requireBlock env active allBranches state instructions).1.coverage.limits →
      (requireBlock env active allBranches state instructions).2.2 = false ∧
      ∀ instruction ∈ instructions,
        Visited (requireBlock env active allBranches state instructions).1
        (requireBlock env active allBranches state instructions).2.1 instruction := by
  induction instructions with
  | nil => exact fun state _ => ⟨rfl, fun _ h => (nomatch h)⟩
  | cons instruction instructions ih =>
    intro state hnodes
    unfold requireBlock at hnodes ⊢
    split_ifs at hnodes ⊢ with hbudget
    · exact absurd (nodes_mem_limit state) hnodes
    dsimp only at hnodes ⊢
    obtain ⟨hstopped, hrest⟩ := ih _ hnodes
    set next := (requireInstruction env active allBranches { state with budget := state.budget - 1 }
      instruction).1
    have hgrows : next.Grows (requireBlock env active allBranches next instructions).1 :=
      grows_requireBlock instructions next
    have hfirst := visited_requireInstruction _ instruction (hgrows.nodes hnodes)
    refine ⟨hstopped, List.forall_mem_cons.mpr ⟨?_, fun other hother => ?_⟩⟩
    · exact hfirst.mono hgrows (List.subset_append_right _ _)
    · exact (hrest other hother).mono (Requirement.Grows.refl _) (List.subset_append_left _ _)

theorem grows_requireVisit (stack : List Nat) (state : Requirement × Bool) :
    state.1.Grows (Stack.drain (requireVisit program env active allBranches) stack state).1 := by
  induction stack, state using Stack.stack_induction
    (requireVisit program env active allBranches) with
  | nil state =>
    rw [Stack.drain_nil]
    exact Requirement.Grows.refl _
  | cons block rest state ih =>
    rw [Stack.drain_cons]
    refine Requirement.Grows.trans ?_ ih
    unfold requireVisit
    dsimp only
    by_cases hstopped : state.2 = true
    · rw [if_pos hstopped]
      exact Requirement.Grows.refl _
    · rw [if_neg hstopped]
      exact grows_requireBlock _ _

/-- A walk that the budget does not end visits every block under no guard. -/
theorem visited_drain (stack : List Nat) (state : Requirement × Bool) : state.2 = false →
    .nodes ∉ (Stack.drain (requireVisit program env active allBranches) stack
      state).1.coverage.limits →
      ∀ start ∈ stack, ∀ block, Relation.ReflTransGen (Holds program) start block →
        ∀ instruction ∈ program.block block, ∃ later,
          Visited (Stack.drain (requireVisit program env active allBranches) stack state).1 later
            instruction := by
  induction stack, state using Stack.stack_induction
    (requireVisit program env active allBranches) with
  | nil state => exact fun _ _ start h => (nomatch h)
  | cons first rest state ih =>
    intro hrunning hnodes
    rw [Stack.drain_cons] at hnodes ⊢
    have hgrows : ((requireVisit program env active allBranches).run state first).1.1.Grows
        (Stack.drain (requireVisit program env active allBranches)
          (((requireVisit program env active allBranches).run state first).2 ++ rest)
          ((requireVisit program env active allBranches).run state first).1).1 :=
      grows_requireVisit _ _
    have hrun : (requireVisit program env active allBranches).run state first =
        (((requireBlock env active allBranches state.1 (program.block first)).1,
          (requireBlock env active allBranches state.1 (program.block first)).2.2),
          if (requireBlock env active allBranches state.1 (program.block first)).2.2 then [] else
            (requireBlock env active allBranches state.1 (program.block first)).2.1) := by
      show (if state.2 = true then _ else _) = _
      rw [hrunning]
      rfl
    have hbudget : .nodes ∉ (requireBlock env active allBranches state.1
      (program.block first)).1.coverage.limits := by
      have := hgrows.nodes hnodes
      rwa [hrun] at this
    have hblock := visited_requireBlock (program.block first) state.1 hbudget
    obtain ⟨hstopped, hvisited⟩ := hblock
    rw [hrun, hstopped] at hgrows ih hnodes ⊢
    rw [if_neg (by decide)] at hgrows ih hnodes ⊢
    have hrest := ih rfl hnodes
    intro start hstart block hpath instruction hinstruction
    rcases List.mem_cons.mp hstart with rfl | hstart
    · rcases Relation.ReflTransGen.cases_head hpath with
        rfl | ⟨next, ⟨holder, hholder, hnext⟩, hpath⟩
      · exact ⟨_, (hvisited instruction hinstruction).mono hgrows (List.Subset.refl _)⟩
      · exact hrest next (List.mem_append_left _ ((hvisited holder hholder).child next hnext)) block
          hpath instruction hinstruction
    · exact hrest start (List.mem_append_right _ hstart) block hpath instruction hinstruction

/-! ## The summary and the walk -/

/-- Among the instructions under no guard, only recovered syntax reads the name. -/
def OnlyRecovered (program : TemplateProgram) (name : Str) : Prop :=
  ∀ block, Unguarded program block → ∀ instruction ∈ program.block block,
    ∀ token ∈ tokensOf instruction, name ∈ foldedReads token → isRecover instruction

/-- A name that the summary reports is looked up by every walk that its budget does not end, unless
only recovered syntax reads it, and then every such walk reports the recovery. All names that
instructions under no guard read are reported. -/
theorem unconditionalReads_read (program : TemplateProgram) :
    (∀ name ∈ unconditionalReads program, ∀ env active allBranches state,
      .nodes ∉ (requireProgram program env active allBranches state).coverage.limits →
        (¬ OnlyRecovered program name →
          name ∈ (requireProgram program env active allBranches state).reads) ∧
        (OnlyRecovered program name →
          .structuralRecovery ∈
            (requireProgram program env active allBranches state).coverage.limits)) ∧
    ∀ block, Unguarded program block → ∀ instruction ∈ program.block block,
      ∀ token ∈ tokensOf instruction,
      ∀ name ∈ tokenReads token, toAsciiLowercase name ∈ unconditionalReads program := by
  constructor
  · intro name hname env active allBranches state hnodes
    have hvisited : ∀ block, Unguarded program block → ∀ instruction ∈ program.block block,
        ∃ later, Visited (requireProgram program env active allBranches state) later instruction :=
      fun block hunguarded instruction hinstruction => visited_drain [0] (state, false) rfl hnodes 0
        (List.mem_singleton_self 0) block hunguarded instruction hinstruction
    constructor
    · intro hother
      unfold OnlyRecovered at hother
      push Not at hother
      obtain ⟨block, hunguarded, instruction, hinstruction, token, htoken, hread, hrecover⟩ :=
        hother
      obtain ⟨later, h⟩ := hvisited block hunguarded instruction hinstruction
      exact h.reads hrecover token htoken name hread
    · intro honly
      obtain ⟨block, hunguarded, instruction, hinstruction, token, htoken, hread⟩ :=
        mem_unconditionalReads_iff.mp hname
      obtain ⟨later, h⟩ := hvisited block hunguarded instruction hinstruction
      exact h.recovered (honly block hunguarded instruction hinstruction token htoken hread)
  · intro block hunguarded instruction hinstruction token htoken name hname
    refine mem_unconditionalReads_iff.mpr ⟨block, hunguarded, instruction, hinstruction,
      token, htoken, ?_⟩
    exact List.mem_toFinset.mpr (List.mem_map_of_mem hname)

/-- A template of recovered syntax with one parameter. -/
def recoveredItems : List TemplateItem :=
  [.recover ⟨TextRange.empty 0, false, [.parameter "p".toList (TextRange.empty 0)]⟩]

/-- How the walk of a call starts. -/
def freshRequirement : Requirement := ⟨262144, {}, ∅, ∅⟩

/-- The walk does not look up what recovered syntax reads. -/
theorem recovered_not_read : ¬ ∀ program, ∀ name ∈ unconditionalReads program, ∀ env active,
    name ∈ (requireProgram program env active false freshRequirement).reads := by
  intro h
  have hblock : (TemplateProgram.compile recoveredItems).block 0 =
      [.recover ⟨TextRange.empty 0, false, [.parameter "p".toList (TextRange.empty 0)]⟩] := by
    simp [TemplateProgram.compile, TemplateProgram.block, Stack.drain_cons, compileVisit,
      compileItems, compileItem, recoveredItems, Compiled.read]
  have hreported : "p".toList ∈ unconditionalReads (TemplateProgram.compile recoveredItems) := by
    refine mem_unconditionalReads_iff.mpr ⟨0, .refl,
      _, by rw [hblock]; exact List.mem_singleton_self _, _, List.mem_singleton_self _, ?_⟩
    decide
  have hread := h _ _ hreported ∅ ∅
  unfold requireProgram at hread
  rw [Stack.drain_cons] at hread
  unfold requireVisit at hread
  simp only [hblock] at hread
  simp [requireBlock, requireInstruction, freshRequirement, Requirement.limit] at hread

end ParadoxCode.Hir
