import ParadoxCode.Parser.Script

/-!
# Two guarded parses in lockstep

Two parses of one source, each with its own guard, stay in the same state as long as neither guard
stops its parse (`Same`). `Moved` is the frame of every function of the parser, for any guard: the
cursor and the tables only grow, new tokens end behind the old cursor, and a stopped parse asks its
guard nothing more. The lemmas here run every function of the parser on both sides; all they need of
the two guards is that `checkWork` runs in lockstep.
-/

namespace ParadoxCode.Script

open ParadoxCode.Parser
open Run (Sim)

/-! ## The frame -/

/-- What a guard may do to its own state, with the number of nodes beside it. -/
structure Watch (σ : Type) extends Run.Frame (σ × Nat) where
  node : ∀ state nodes, Step (state, nodes) (state, nodes + 1)

section

variable {σ : Type} (source : List Char) (G : Watch σ)

/-- The cursor, at most the length of the source. -/
def cursor (p : Parser σ) : Nat := min p.position (byteLen source)

/-- The frame of the parser. -/
structure Moved (p p' : Parser σ) : Prop where
  guard : G.Step (p.guardState, p.nodes) (p'.guardState, p'.nodes)
  cursor : cursor source p ≤ cursor source p'
  tokens : ∃ more, p'.tokens = p.tokens ++ more ∧
    ∀ token ∈ more, min (Script.cursor source p) u32Max ≤ token.range.stop
  stopped : p.stopped = true → p'.stopped = true ∧ p'.guardState = p.guardState
  kinds : ∃ more, p'.tree.tree.kinds = p.tree.tree.kinds ++ more ∧ CstKind.document ∉ more

variable {source G}

theorem Moved.of_eq {p p' : Parser σ} (hguard : p'.guardState = p.guardState)
    (hnodes : p'.nodes = p.nodes) (hcursor : Script.cursor source p ≤ Script.cursor source p')
    (htokens : p'.tokens = p.tokens) (hstopped : p'.stopped = p.stopped)
    (hkinds : p'.tree.tree.kinds = p.tree.tree.kinds) : Moved source G p p' where
  guard := by rw [hguard, hnodes]; exact G.refl _
  cursor := hcursor
  tokens := ⟨[], by rw [htokens, List.append_nil], by simp⟩
  stopped := fun h => ⟨hstopped.trans h, hguard⟩
  kinds := ⟨[], by rw [hkinds, List.append_nil], by simp⟩

theorem Moved.refl (p : Parser σ) : Moved source G p p :=
  Moved.of_eq rfl rfl le_rfl rfl rfl rfl

theorem Moved.trans {p p' p'' : Parser σ} (h : Moved source G p p') (h' : Moved source G p' p'') :
    Moved source G p p'' where
  guard := G.trans h.guard h'.guard
  cursor := Nat.le_trans h.cursor h'.cursor
  tokens := by
    obtain ⟨more, hmore, hend⟩ := h.tokens
    obtain ⟨more', hmore', hend'⟩ := h'.tokens
    refine ⟨more ++ more', by rw [hmore', hmore, List.append_assoc], fun token ht => ?_⟩
    rcases List.mem_append.mp ht with ht | ht
    · exact hend token ht
    · have := h.cursor
      have := hend' token ht
      omega
  stopped := fun hs => ⟨(h'.stopped (h.stopped hs).1).1,
    (h'.stopped (h.stopped hs).1).2.trans (h.stopped hs).2⟩
  kinds := by
    obtain ⟨more, hmore, hnot⟩ := h.kinds
    obtain ⟨more', hmore', hnot'⟩ := h'.kinds
    refine ⟨more ++ more', by rw [hmore', hmore, List.append_assoc], fun hmem => ?_⟩
    rcases List.mem_append.mp hmem with hmem | hmem
    · exact hnot hmem
    · exact hnot' hmem

variable (source G)

def frame : Run.Frame (Parser σ) := ⟨Moved source G, Moved.refl, Moved.trans⟩

end

section

variable {σ τ : Type} (R : σ → τ → Prop)

/-- Two running parses in the same state, with related guards. -/
structure Same (p : Parser σ) (q : Parser τ) : Prop where
  guard : R p.guardState q.guardState
  work : p.work = q.work
  nodes : p.nodes = q.nodes
  depth : p.depth = q.depth
  running : p.stopped = false
  running' : q.stopped = false
  position : p.position = q.position
  tokens : p.tokens = q.tokens
  errors : p.errors = q.errors
  tree : p.tree = q.tree

variable (source : List Char) (G : Watch σ) (H : Watch τ) (Cut : Parser σ → Parser τ → Prop)
  (hcut : ∀ {p p' q q'}, Cut p q → Moved source G p p' → Moved source H q q' → Cut p' q')

/-- The link of two parses: `Cut` holds from the moment one of them stops. -/
def twin : Run.Link (Parser σ) (Parser τ) := ⟨Same R, Cut, frame source G, frame source H, hcut⟩

end

section

variable {σ τ : Type} {R : σ → τ → Prop} {source : List Char} {G : Watch σ} {H : Watch τ}
  {Cut : Parser σ → Parser τ → Prop}
  {hcut : ∀ {p p' q q'}, Cut p q → Moved source G p p' → Moved source H q q' → Cut p' q'}

/-! ## Primitives -/

theorem position_sim : Sim (twin R source G H Cut hcut) position position :=
  Sim.read fun _ _ h => h.position

theorem rest_sim : Sim (twin R source G H Cut hcut) (rest source) (rest source) :=
  Sim.read fun _ _ h => by rw [h.position]

theorem peek_sim : Sim (twin R source G H Cut hcut) (peek source) (peek source) :=
  Sim.read fun _ _ h => by rw [h.position]

theorem isSaturated_sim : Sim (twin R source G H Cut hcut) isSaturated isSaturated :=
  Sim.read fun _ _ h => by rw [h.tree]

theorem childrenMark_sim : Sim (twin R source G H Cut hcut) childrenMark childrenMark :=
  Sim.read fun _ _ h => by rw [h.tree]

theorem advance_sim (count : Nat) :
    Sim (twin R source G H Cut hcut) (advance count) (advance count) := by
  have hle : ∀ {υ : Type} (p : Parser υ),
      cursor source p ≤ cursor source { p with position := p.position + count } := by
    intro υ p
    unfold cursor
    dsimp only
    omega
  refine Sim.modify (fun p q h => ?_) (fun p => ?_) fun q => ?_
  · exact { h with position := by rw [h.position] }
  · exact Moved.of_eq rfl rfl (hle p) rfl rfl rfl
  · exact Moved.of_eq rfl rfl (hle q) rfl rfl rfl

theorem advanceOne_sim :
    Sim (twin R source G H Cut hcut) (advanceOne source) (advanceOne source) := by
  have hle : ∀ {υ : Type} (p : Parser υ), cursor source p ≤
      cursor source { p with position := min (p.position + 1) (byteLen source) } := by
    intro υ p
    unfold cursor
    dsimp only
    omega
  refine Sim.modify (fun p q h => ?_) (fun p => ?_) fun q => ?_
  · exact { h with position := by rw [h.position] }
  · exact Moved.of_eq rfl rfl (hle p) rfl rfl rfl
  · exact Moved.of_eq rfl rfl (hle q) rfl rfl rfl

/-- A token ends at the cursor. -/
theorem moved_token {υ : Type} {F : Watch υ} (p : Parser υ) (kind : TokenKind) (start : Nat) :
    Moved source F p { p with tokens := p.tokens ++ [⟨kind, range start p.position⟩] } where
  guard := F.refl _
  cursor := le_rfl
  tokens := by
    refine ⟨_, rfl, fun token ht => ?_⟩
    rw [List.mem_singleton.mp ht]
    unfold cursor range
    dsimp only
    omega
  stopped := fun h => ⟨h, rfl⟩
  kinds := ⟨[], (List.append_nil _).symm, by simp⟩

theorem pushToken_sim (kind : TokenKind) (start : Nat) :
    Sim (twin R source G H Cut hcut) (pushToken kind start) (pushToken kind start) :=
  Sim.modify (fun _ _ h => { h with tokens := by rw [h.tokens, h.position] })
    (fun p => moved_token p kind start) fun q => moved_token q kind start

theorem error_sim (kind : SyntaxErrorKind) (start stop : Nat) (message : String) :
    Sim (twin R source G H Cut hcut) (error kind start stop message)
      (error kind start stop message) :=
  Sim.modify (fun _ _ h => { h with errors := by rw [h.errors] })
    (fun _ => Moved.of_eq rfl rfl le_rfl rfl rfl rfl)
    fun _ => Moved.of_eq rfl rfl le_rfl rfl rfl rfl

theorem push_sim (index : Nat) : Sim (twin R source G H Cut hcut) (push index) (push index) :=
  Sim.modify (fun _ _ h => { h with tree := by rw [h.tree] })
    (fun _ => Moved.of_eq rfl rfl le_rfl rfl rfl rfl)
    fun _ => Moved.of_eq rfl rfl le_rfl rfl rfl rfl

theorem depth_sim (change : Nat → Nat) :
    Sim (twin R source G H Cut hcut) (Run.modify fun p => { p with depth := change p.depth })
      (Run.modify fun q => { q with depth := change q.depth }) :=
  Sim.modify (fun _ _ h => { h with depth := by rw [h.depth] })
    (fun _ => Moved.of_eq rfl rfl le_rfl rfl rfl rfl)
    fun _ => Moved.of_eq rfl rfl le_rfl rfl rfl rfl

/-- A value computed from the tree alone. -/
theorem tree_sim {α : Type} (f : SyntaxTreeBuilder → Option α) :
    Sim (twin R source G H Cut hcut) (fun p => (f p.tree).map fun a => (a, p))
      (fun q => (f q.tree).map fun a => (a, q)) := by
  have hmoves : ∀ {υ : Type} {F : Watch υ},
      Run.Moves (frame source F).Step (fun p : Parser υ => (f p.tree).map fun a => (a, p)) := by
    intro υ F p a p' h
    obtain ⟨b, -, hb⟩ := Option.map_eq_some_iff.mp h
    cases hb
    exact Moved.refl p
  refine ⟨fun p q a p' b q' h hp hq => Or.inl ?_, hmoves, hmoves⟩
  obtain ⟨a', ha, hp⟩ := Option.map_eq_some_iff.mp hp
  obtain ⟨b', hb, hq⟩ := Option.map_eq_some_iff.mp hq
  cases hp
  cases hq
  rw [h.tree, hb] at ha
  exact ⟨(Option.some.inj ha).symm, h⟩

theorem childrenSince_sim (mark : Nat) :
    Sim (twin R source G H Cut hcut) (childrenSince mark) (childrenSince mark) :=
  tree_sim fun tree => tree.childrenSince mark

theorem nodeRange_sim (index : Nat) :
    Sim (twin R source G H Cut hcut) (nodeRange index) (nodeRange index) :=
  tree_sim fun tree => tree.nodeRange index

theorem emit_moves {υ : Type} {F : Watch υ} {kind : CstKind} (hkind : kind ≠ .document)
    (range : TextRange) (count : Nat) :
    Run.Moves (frame source F).Step (emit kind range count : ParseM υ Nat) := by
  intro p index p' h
  unfold emit SyntaxTreeBuilder.node at h
  split_ifs at h
  · cases h
  · cases h
    exact
      { guard := F.node _ _
        cursor := le_rfl
        tokens := ⟨[], (List.append_nil _).symm, by simp⟩
        stopped := fun h => ⟨h, rfl⟩
        kinds := ⟨[kind], rfl, by simpa using hkind.symm⟩ }

theorem emit_sim {kind : CstKind} (hkind : kind ≠ .document) (range : TextRange) (count : Nat) :
    Sim (twin R source G H Cut hcut) (emit kind range count) (emit kind range count) := by
  refine ⟨fun p q a p' b q' h hp hq => Or.inl ?_, emit_moves hkind range count,
    emit_moves hkind range count⟩
  unfold emit at hp hq
  rw [h.tree] at hp
  obtain ⟨⟨index, tree⟩, hnode, hp⟩ := Option.map_eq_some_iff.mp hp
  rw [hnode] at hq
  cases hp
  cases hq
  exact ⟨rfl, { h with nodes := by rw [h.nodes], tree := rfl }⟩

theorem nextChar_sim : Sim (twin R source G H Cut hcut) (nextChar source) (nextChar source) := by
  refine Sim.bind position_sim fun position => Sim.ite ?_ Sim.fail
  cases Utf8.decodeFirst (bytesAt source position) <;> exact Sim.pure _

/-! ## Scanners -/

variable {guard : Option (Guard σ)} {guard' : Option (Guard τ)}
  (hcheck : ∀ force, Sim (twin R source G H Cut hcut) (checkWork guard source force)
    (checkWork guard' source force))

include hcheck

theorem node_sim {kind : CstKind} (hkind : kind ≠ .document) (start stop count : Nat) :
    Sim (twin R source G H Cut hcut) (node guard source kind start stop count)
      (node guard' source kind start stop count) :=
  Sim.bind (hcheck true) fun _ => emit_sim hkind _ _

theorem skipLoop_sim (continues : UInt8 → Bool) (bytes : List UInt8) :
    Sim (twin R source G H Cut hcut) (skipLoop guard source continues bytes)
      (skipLoop guard' source continues bytes) := by
  induction bytes with
  | nil => exact Sim.pure _
  | cons byte bytes ih =>
    refine Sim.ite (Sim.bind (hcheck false) fun goOn => Sim.ite ?_ (Sim.pure _)) (Sim.pure _)
    exact Sim.bind (advance_sim 1) fun _ => ih

theorem skipWhitespace_sim :
    Sim (twin R source G H Cut hcut) (skipWhitespace guard source) (skipWhitespace guard' source) :=
  Sim.bind rest_sim fun bytes => skipLoop_sim hcheck _ bytes

theorem parseComment_sim :
    Sim (twin R source G H Cut hcut) (parseComment guard source) (parseComment guard' source) := by
  refine Sim.bind position_sim fun start => Sim.bind rest_sim fun bytes => ?_
  refine Sim.bind (skipLoop_sim hcheck _ bytes) fun _ => Sim.bind (pushToken_sim _ _) fun _ => ?_
  exact Sim.bind position_sim fun stop => node_sim hcheck (by decide) _ _ _

theorem bareLoop_sim (bytes : List UInt8) :
    Sim (twin R source G H Cut hcut) (bareLoop guard source bytes)
      (bareLoop guard' source bytes) := by
  induction bytes with
  | nil => exact Sim.pure _
  | cons byte bytes ih =>
    refine Sim.bind (hcheck false) fun goOn => Sim.ite (Sim.ite (Sim.pure _) ?_) (Sim.pure _)
    exact Sim.bind (advance_sim 1) fun _ => ih

theorem parseBare_sim :
    Sim (twin R source G H Cut hcut) (parseBare guard source) (parseBare guard' source) := by
  refine Sim.bind position_sim fun start => Sim.bind rest_sim fun bytes => ?_
  refine Sim.bind (bareLoop_sim hcheck bytes) fun _ => Sim.bind position_sim fun stop => ?_
  refine Sim.ite (Sim.pure _) (Sim.bind (pushToken_sim _ _) fun _ => ?_)
  exact Sim.bind (node_sim hcheck (by decide) _ _ _) fun index => Sim.pure _

omit hcheck in
theorem advanceChar_sim :
    Sim (twin R source G H Cut hcut) (advanceChar source) (advanceChar source) := by
  refine Sim.bind nextChar_sim fun character => ?_
  cases character with
  | none => exact Sim.pure _
  | some character => exact Sim.bind (advance_sim _) fun _ => Sim.pure _

omit hcheck in
theorem advanceEscape_sim :
    Sim (twin R source G H Cut hcut) (advanceEscape source) (advanceEscape source) :=
  Sim.bind (advance_sim 1) fun _ => Sim.bind position_sim fun _ =>
    Sim.ite (Sim.bind advanceChar_sim fun _ => Sim.pure _) (Sim.pure _)

theorem quotedLoop_sim (fuel : Nat) :
    Sim (twin R source G H Cut hcut) (quotedLoop guard source fuel)
      (quotedLoop guard' source fuel) := by
  induction fuel with
  | zero => exact Sim.fail
  | succ fuel ih =>
    refine Sim.bind peek_sim fun byte => ?_
    cases byte with
    | none => exact Sim.pure _
    | some byte =>
      refine Sim.bind (hcheck false) fun goOn => Sim.ite ?_ (Sim.pure _)
      refine Sim.ite (Sim.bind (advance_sim 1) fun _ => Sim.pure _) ?_
      refine Sim.ite (Sim.bind advanceEscape_sim fun _ => ih) ?_
      exact Sim.bind advanceChar_sim fun found => Sim.ite ih (Sim.pure _)

omit hcheck in
theorem reportUnclosed_sim (closed : Bool) (start stop : Nat) :
    Sim (twin R source G H Cut hcut) (reportUnclosed closed start stop)
      (reportUnclosed closed start stop) := Sim.ite (Sim.pure _) (error_sim _ _ _ _)

theorem parseQuoted_sim {kind : CstKind} (hkind : kind ≠ .document) :
    Sim (twin R source G H Cut hcut) (parseQuoted guard source kind)
      (parseQuoted guard' source kind) := by
  refine Sim.bind position_sim fun start => Sim.bind (advance_sim 1) fun _ => ?_
  refine Sim.bind (quotedLoop_sim hcheck _) fun closed => Sim.bind position_sim fun stop => ?_
  refine Sim.bind (pushToken_sim _ _) fun _ => Sim.bind (reportUnclosed_sim _ _ _) fun _ => ?_
  exact node_sim hcheck hkind _ _ _

theorem parseOperator_sim :
    Sim (twin R source G H Cut hcut) (parseOperator guard source)
      (parseOperator guard' source) := by
  refine Sim.bind position_sim fun start => Sim.ite Sim.fail (Sim.bind rest_sim fun bytes => ?_)
  cases operatorLength bytes with
  | none => exact Sim.pure _
  | some length =>
    refine Sim.bind (advance_sim _) fun _ => Sim.bind (pushToken_sim _ _) fun _ => ?_
    refine Sim.bind position_sim fun stop => ?_
    exact Sim.bind (node_sim hcheck (by decide) _ _ _) fun index => Sim.pure _

omit hcheck

theorem operatorStartsHere_sim :
    Sim (twin R source G H Cut hcut) (operatorStartsHere source) (operatorStartsHere source) :=
  Sim.bind peek_sim fun _ => Sim.pure _

theorem startsParameterBlock_sim :
    Sim (twin R source G H Cut hcut) (startsParameterBlock source) (startsParameterBlock source) :=
  Sim.bind rest_sim fun _ => Sim.pure _

theorem consumeDelimiter_sim (kind : TokenKind) :
    Sim (twin R source G H Cut hcut) (consumeDelimiter source kind)
      (consumeDelimiter source kind) :=
  Sim.bind position_sim fun _ => Sim.bind advanceOne_sim fun _ => pushToken_sim _ _

theorem consumeOpenBrace_sim :
    Sim (twin R source G H Cut hcut) (consumeOpenBrace source) (consumeOpenBrace source) :=
  Sim.bind peek_sim fun _ => Sim.ite (consumeDelimiter_sim _) (Sim.pure _)

/-! ## The grammar -/

theorem closeOr_sim (delimiter : UInt8) (kind : SyntaxErrorKind) (start : Nat) (message : String) :
    Sim (twin R source G H Cut hcut) (closeOr source delimiter kind start message)
      (closeOr source delimiter kind start message) :=
  Sim.bind peek_sim fun _ => Sim.ite (consumeDelimiter_sim _) (error_sim _ _ _ _)

theorem skipNegation_sim :
    Sim (twin R source G H Cut hcut) (skipNegation source) (skipNegation source) :=
  Sim.bind peek_sim fun _ => Sim.ite (advance_sim 1) (Sim.pure _)

theorem closeCondition_sim :
    Sim (twin R source G H Cut hcut) (closeCondition source) (closeCondition source) :=
  Sim.bind peek_sim fun _ => Sim.ite (consumeDelimiter_sim _)
    (Sim.bind position_sim fun _ => error_sim _ _ _ _)

theorem unassigned_sim (terminator : Option UInt8) (start quoted : Nat) :
    Sim (twin R source G H Cut hcut) (unassigned terminator start quoted)
      (unassigned terminator start quoted) :=
  Sim.ite (Sim.bind (nodeRange_sim _) fun _ => error_sim _ _ _ _) (Sim.pure _)

include hcheck

theorem conditionOrError_sim (condition : Option Nat) (start stop : Nat) :
    Sim (twin R source G H Cut hcut) (conditionOrError guard source condition start stop)
      (conditionOrError guard' source condition start stop) := by
  cases condition with
  | none => exact Sim.bind (error_sim _ _ _ _) fun _ => node_sim hcheck (by decide) _ _ _
  | some condition => exact Sim.pure _

theorem parseCondition_sim :
    Sim (twin R source G H Cut hcut) (parseCondition guard source)
      (parseCondition guard' source) := by
  refine Sim.bind position_sim fun start => Sim.bind skipNegation_sim fun _ => ?_
  refine Sim.bind (parseBare_sim hcheck) fun scalar => Sim.bind position_sim fun stop => ?_
  refine Sim.bind (conditionOrError_sim hcheck scalar start stop) fun condition => ?_
  refine Sim.bind (skipWhitespace_sim hcheck) fun _ => Sim.bind closeCondition_sim fun _ => ?_
  refine Sim.bind (push_sim condition) fun _ => ?_
  exact Sim.bind (node_sim hcheck (by decide) _ _ _) fun index => push_sim index

theorem recover_sim (start : Nat) (message : String → String) :
    Sim (twin R source G H Cut hcut) (recover guard source start message)
      (recover guard' source start message) := by
  refine Sim.bind advanceOne_sim fun _ => Sim.bind position_sim fun stop => ?_
  exact Sim.bind (error_sim _ _ _ _) fun _ => node_sim hcheck (by decide) _ _ _

theorem operatorOrError_sim :
    Sim (twin R source G H Cut hcut) (operatorOrError guard source)
      (operatorOrError guard' source) := by
  refine Sim.bind position_sim fun start => Sim.bind (parseOperator_sim hcheck) fun operator => ?_
  cases operator with
  | none => exact recover_sim hcheck _ _
  | some operator => exact Sim.pure _

variable {container : Option UInt8 → ParseM σ Unit} {container' : Option UInt8 → ParseM τ Unit}
  (hcontainer : ∀ terminator, Sim (twin R source G H Cut hcut) (container terminator)
    (container' terminator))

include hcontainer

theorem parseBlock_sim :
    Sim (twin R source G H Cut hcut) (parseBlock guard source container)
      (parseBlock guard' source container') := by
  refine Sim.bind position_sim fun start => Sim.bind consumeOpenBrace_sim fun _ => ?_
  refine Sim.bind childrenMark_sim fun mark => Sim.bind (hcontainer _) fun _ => ?_
  refine Sim.bind (childrenSince_sim mark) fun children => ?_
  refine Sim.bind (closeOr_sim _ _ _ _) fun _ => Sim.bind position_sim fun stop => ?_
  exact node_sim hcheck (by decide) _ _ _

theorem parseParameterBlock_sim :
    Sim (twin R source G H Cut hcut) (parseParameterBlock guard source container)
      (parseParameterBlock guard' source container') := by
  refine Sim.bind position_sim fun start => Sim.bind (consumeDelimiter_sim _) fun _ => ?_
  refine Sim.bind (consumeDelimiter_sim _) fun _ => Sim.bind (parseCondition_sim hcheck) fun _ => ?_
  refine Sim.bind childrenMark_sim fun mark => Sim.bind (hcontainer _) fun _ => ?_
  refine Sim.bind (childrenSince_sim mark) fun children => ?_
  refine Sim.bind (closeOr_sim _ _ _ _) fun _ => Sim.bind position_sim fun stop => ?_
  exact node_sim hcheck (by decide) _ _ _

theorem parseHeader_sim (start first : Nat) :
    Sim (twin R source G H Cut hcut) (parseHeader guard source container start first)
      (parseHeader guard' source container' start first) := by
  refine Sim.bind (parseBlock_sim hcheck hcontainer) fun block => ?_
  refine Sim.bind (nodeRange_sim block) fun range => Sim.bind (push_sim first) fun _ => ?_
  exact Sim.bind (push_sim block) fun _ => node_sim hcheck (by decide) _ _ _

theorem parseValue_sim :
    Sim (twin R source G H Cut hcut) (parseValue guard source container)
      (parseValue guard' source container') := by
  refine Sim.bind position_sim fun start => Sim.bind peek_sim fun byte => ?_
  refine Sim.ite (parseQuoted_sim hcheck (by decide)) ?_
  refine Sim.ite (parseBlock_sim hcheck hcontainer) ?_
  refine Sim.bind startsParameterBlock_sim fun parameter => ?_
  refine Sim.ite (parseParameterBlock_sim hcheck hcontainer) ?_
  refine Sim.bind (parseBare_sim hcheck) fun value => ?_
  cases value with
  | none => exact recover_sim hcheck _ _
  | some value =>
    refine Sim.bind (skipWhitespace_sim hcheck) fun _ => Sim.bind peek_sim fun byte => ?_
    exact Sim.ite (parseHeader_sim hcheck hcontainer _ _) (Sim.pure _)

theorem valueOrError_sim (key : Nat) :
    Sim (twin R source G H Cut hcut) (valueOrError guard source container key)
      (valueOrError guard' source container' key) := by
  refine Sim.bind position_sim fun gap => Sim.bind peek_sim fun byte => Sim.ite ?_ ?_
  · refine Sim.bind (nodeRange_sim key) fun range => Sim.bind (error_sim _ _ _ _) fun _ => ?_
    exact node_sim hcheck (by decide) _ _ _
  · exact parseValue_sim hcheck hcontainer

theorem parseProperty_sim (start key : Nat) :
    Sim (twin R source G H Cut hcut) (parseProperty guard source container start key)
      (parseProperty guard' source container' start key) := by
  refine Sim.bind (operatorOrError_sim hcheck) fun operator => ?_
  refine Sim.bind (skipWhitespace_sim hcheck) fun _ => ?_
  refine Sim.bind (valueOrError_sim hcheck hcontainer key) fun value => ?_
  refine Sim.bind (nodeRange_sim key) fun keyRange => Sim.bind (push_sim key) fun _ => ?_
  refine Sim.bind (node_sim hcheck (by decide) _ _ _) fun keyNode => ?_
  refine Sim.bind (nodeRange_sim value) fun valueRange => Sim.bind (push_sim value) fun _ => ?_
  refine Sim.bind (node_sim hcheck (by decide) _ _ _) fun valueNode => ?_
  refine Sim.bind (push_sim keyNode) fun _ => Sim.bind (push_sim operator) fun _ => ?_
  exact Sim.bind (push_sim valueNode) fun _ => node_sim hcheck (by decide) _ _ _

theorem afterScalar_sim (start scalar : Nat) {alone : ParseM σ Unit} {alone' : ParseM τ Unit}
    (halone : Sim (twin R source G H Cut hcut) alone alone') :
    Sim (twin R source G H Cut hcut) (afterScalar guard source container start scalar alone)
      (afterScalar guard' source container' start scalar alone') := by
  refine Sim.bind (skipWhitespace_sim hcheck) fun _ => ?_
  refine Sim.bind operatorStartsHere_sim fun operator => Sim.ite ?_ ?_
  · exact Sim.bind (parseProperty_sim hcheck hcontainer _ _) fun property => push_sim property
  · refine Sim.bind peek_sim fun byte => Sim.ite ?_ (Sim.bind halone fun _ => push_sim scalar)
    exact Sim.bind (parseHeader_sim hcheck hcontainer _ _) fun header => push_sim header

theorem parseItem_sim (terminator : Option UInt8) :
    Sim (twin R source G H Cut hcut) (parseItem guard source container terminator)
      (parseItem guard' source container' terminator) := by
  refine Sim.bind position_sim fun start => Sim.bind peek_sim fun byte => Sim.ite ?_ (Sim.ite ?_ ?_)
  · exact Sim.bind (parseComment_sim hcheck) fun comment => push_sim comment
  · refine Sim.bind (advance_sim 1) fun _ => Sim.bind position_sim fun stop => ?_
    refine Sim.bind (error_sim _ _ _ _) fun _ => ?_
    exact Sim.bind (node_sim hcheck (by decide) _ _ _) fun recovery => push_sim recovery
  · refine Sim.bind (parseBare_sim hcheck) fun first => ?_
    cases first with
    | some first => exact afterScalar_sim hcheck hcontainer _ _ (Sim.pure _)
    | none =>
      refine Sim.bind peek_sim fun byte => Sim.ite ?_ (Sim.ite ?_ ?_)
      · exact Sim.bind (parseBlock_sim hcheck hcontainer) fun block => push_sim block
      · refine Sim.bind (parseQuoted_sim hcheck (by decide)) fun quoted => ?_
        exact afterScalar_sim hcheck hcontainer _ _ (unassigned_sim _ _ _)
      · refine Sim.bind startsParameterBlock_sim fun parameter => Sim.ite ?_ ?_
        · exact Sim.bind (parseParameterBlock_sim hcheck hcontainer) fun block => push_sim block
        · exact Sim.bind (recover_sim hcheck _ _) fun recovery => push_sim recovery

omit hcontainer

theorem parseContainer_sim {loop : Option UInt8 → ParseM σ Unit}
    {loop' : Option UInt8 → ParseM τ Unit} (terminator : Option UInt8)
    (hloop : Sim (twin R source G H Cut hcut) (loop terminator) (loop' terminator)) :
    Sim (twin R source G H Cut hcut) (parseContainer guard source loop terminator)
      (parseContainer guard' source loop' terminator) := by
  refine Sim.bind (depth_sim (· + 1)) fun _ => Sim.bind (hcheck true) fun _ => ?_
  exact Sim.bind hloop fun _ => depth_sim (· - 1)

theorem containerLoop_sim (fuel : Nat) (terminator : Option UInt8) :
    Sim (twin R source G H Cut hcut) (containerLoop guard source fuel terminator)
      (containerLoop guard' source fuel terminator) := by
  induction fuel generalizing terminator with
  | zero => exact Sim.fail
  | succ fuel ih =>
    refine Sim.bind (hcheck false) fun goOn => Sim.ite ?_ (Sim.pure _)
    refine Sim.bind (skipWhitespace_sim hcheck) fun _ => Sim.bind position_sim fun position => ?_
    refine Sim.bind isSaturated_sim fun saturated => Sim.ite (Sim.pure _) ?_
    refine Sim.bind peek_sim fun byte => Sim.ite (Sim.pure _) ?_
    refine Sim.bind (parseItem_sim hcheck (fun nested => ?_) terminator) fun _ => ih terminator
    exact parseContainer_sim hcheck nested (ih nested)

/-- The top-level container in lockstep. -/
theorem topContainer_sim :
    Sim (twin R source G H Cut hcut)
      (parseContainer guard source (containerLoop guard source (byteLen source + 1)) none)
      (parseContainer guard' source (containerLoop guard' source (byteLen source + 1)) none) :=
  parseContainer_sim hcheck none (containerLoop_sim hcheck _ _)

end

end ParadoxCode.Script
