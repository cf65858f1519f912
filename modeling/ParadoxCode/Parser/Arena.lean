import ParadoxCode.Parser.Cst

/-!
# Well-formed arenas

The invariant of the builder that both parsers keep: pending children and emitted nodes exist, and,
as long as the arena stays within `u32` and the source below 4 GiB (`Fits`), every emitted range is
valid and every child comes before its parent and lies inside it. A finished tree with the invariant
passes the validity check of its nodes.
-/

namespace ParadoxCode.Parser

/-- The range of a token, an error or a node is valid for the source. -/
def InSource (source : List Char) (range : TextRange) : Prop :=
  Boundary source range.start ∧ Boundary source range.stop

theorem range_eq {start stop : Nat} (hle : start ≤ stop) (hstop : stop ≤ u32Max) :
    range start stop = ⟨start, stop, hle⟩ := by
  unfold range
  congr 1 <;> omega

theorem inSource_range {source : List Char} {start stop : Nat} (hlen : byteLen source ≤ u32Max)
    (hle : start ≤ stop) (hstart : Boundary source start) (hstop : Boundary source stop) :
    InSource source (range start stop) := by
  rw [range_eq hle (Nat.le_trans hstop.le hlen)]
  exact ⟨hstart, hstop⟩

theorem validRange_of_inSource {source : List Char} {range : TextRange}
    (h : InSource source range) : validRange range source = true := by
  unfold validRange
  rw [Bool.and_eq_true, Bool.and_eq_true, decide_eq_true_eq, decide_eq_true_eq,
    getText_isSome_iff]
  exact ⟨⟨range.le, h.2.le⟩, range.le, h.1, h.2⟩

theorem asU32_eq {n : Nat} (h : n < 2 ^ 32) : asU32 n = n := Nat.mod_eq_of_lt h

theorem asU32_le (n : Nat) : asU32 n ≤ n := Nat.mod_le n _

namespace SyntaxTreeBuilder

/-- The emitted nodes. -/
abbrev cores (b : SyntaxTreeBuilder) : List NodeCore := b.tree.cores

/-- The number of emitted nodes. -/
abbrev count (b : SyntaxTreeBuilder) : Nat := b.cores.length

/-- Nothing was clamped or truncated: the source and the arena fit into `u32`. -/
def Fits (source : List Char) (b : SyntaxTreeBuilder) : Prop :=
  byteLen source ≤ u32Max ∧ b.count ≤ 2 ^ 32

/-- The node `index` exists, and its range lies between two offsets. -/
def Within (source : List Char) (b : SyntaxTreeBuilder) (index start stop : Nat) : Prop :=
  index < b.count ∧ (Fits source b → ∃ core, b.cores[index]? = some core ∧
    InSource source core.range ∧ start ≤ core.range.start ∧ core.range.stop ≤ stop)

/-- The tables around the node `index` are consistent: its children come before it and lie inside
it. -/
def Nested (source : List Char) (b : SyntaxTreeBuilder) (index : Nat) (core : NodeCore) : Prop :=
  core.firstEdge + core.edgeCount ≤ b.tree.edges.length ∧
    ∀ child ∈ (b.tree.edges.drop core.firstEdge).take core.edgeCount, child < index ∧
      Within source b child core.range.start core.range.stop

/-- The invariant of the builder. `held` counts the nodes that are emitted, not pending and not a
child yet. -/
structure Arena (source : List Char) (held : Nat) (b : SyntaxTreeBuilder) : Prop where
  kinds : b.tree.kinds.length = b.count
  slack : b.tree.edges.length + b.children.length + held ≤ b.count
  pending : ∀ child ∈ b.children, child < b.count
  ranges : Fits source b → ∀ index core, b.cores[index]? = some core →
    InSource source core.range ∧ Nested source b index core

/-- Nodes are only added. -/
def Grows (b b' : SyntaxTreeBuilder) : Prop := ∃ more, b'.cores = b.cores ++ more

/-- What a node needs: an ordered pair of boundaries around its children. -/
structure Spans (source : List Char) (b : SyntaxTreeBuilder) (children : List Nat)
    (start stop : Nat) : Prop where
  le : start ≤ stop
  boundary : Boundary source start
  boundary' : Boundary source stop
  children : ∀ child ∈ children, Within source b child start stop

variable {source : List Char} {b b' b'' : SyntaxTreeBuilder} {held : Nat}

theorem Grows.refl (b : SyntaxTreeBuilder) : Grows b b := ⟨[], (List.append_nil _).symm⟩

theorem Grows.trans (h : Grows b b') (h' : Grows b' b'') : Grows b b'' := by
  obtain ⟨more, hm⟩ := h
  obtain ⟨more', hm'⟩ := h'
  exact ⟨more ++ more', by rw [hm', hm, List.append_assoc]⟩

theorem Grows.count_le (h : Grows b b') : b.count ≤ b'.count := by
  obtain ⟨more, hm⟩ := h
  rw [count, count, hm, List.length_append]
  exact Nat.le_add_right _ _

theorem Grows.fits (h : Grows b b') (hf : Fits source b') : Fits source b :=
  ⟨hf.1, Nat.le_trans h.count_le hf.2⟩

/-- Emitted nodes keep their ranges. -/
theorem Within.mono {index start stop start' stop' : Nat} (h : Within source b index start stop)
    (hgrows : Grows b b') (hstart : start' ≤ start) (hstop : stop ≤ stop') :
    Within source b' index start' stop' := by
  refine ⟨Nat.lt_of_lt_of_le h.1 hgrows.count_le, fun hf => ?_⟩
  obtain ⟨core, hcore, hin, hl, hr⟩ := h.2 (hgrows.fits hf)
  obtain ⟨more, hm⟩ := hgrows
  refine ⟨core, ?_, hin, Nat.le_trans hstart hl, Nat.le_trans hr hstop⟩
  rw [hm, List.getElem?_append_left h.1, hcore]

theorem Within.widen {index start stop start' stop' : Nat} (h : Within source b index start stop)
    (hw : Fits source b → start' ≤ start ∧ stop ≤ stop') : Within source b index start' stop' := by
  refine ⟨h.1, fun hf => ?_⟩
  obtain ⟨core, hcore, hin, hl, hr⟩ := h.2 hf
  obtain ⟨hl', hr'⟩ := hw hf
  exact ⟨core, hcore, hin, Nat.le_trans hl' hl, Nat.le_trans hr hr'⟩

/-- An existing node can be looked up. -/
theorem Within.nodeRange {index start stop : Nat} (h : Within source b index start stop) :
    ∃ range, b.nodeRange index = some range ∧ Within source b index range.start range.stop ∧
      (Fits source b → InSource source range ∧ start ≤ range.start ∧ range.stop ≤ stop) := by
  obtain ⟨core, hcore⟩ : ∃ core, b.cores[index]? = some core :=
    ⟨_, List.getElem?_eq_some_iff.mpr ⟨h.1, rfl⟩⟩
  have hinside : Fits source b →
      InSource source core.range ∧ start ≤ core.range.start ∧ core.range.stop ≤ stop := by
    intro hf
    obtain ⟨core', hcore', hw⟩ := h.2 hf
    rw [hcore] at hcore'
    cases hcore'
    exact hw
  refine ⟨core.range, ?_, ⟨h.1, fun hf => ?_⟩, hinside⟩
  · unfold SyntaxTreeBuilder.nodeRange
    rw [hcore]
    rfl
  · exact ⟨core, hcore, (hinside hf).1, le_rfl, le_rfl⟩

theorem Arena.empty : Arena source 0 SyntaxTreeBuilder.empty where
  kinds := rfl
  slack := le_rfl
  pending := by simp [SyntaxTreeBuilder.empty]
  ranges := by
    rintro - index core hc
    cases hc

/-- Queues an emitted node. -/
theorem Arena.pushChild {index : Nat} (h : Arena source (held + 1) b) (hi : index < b.count) :
    Arena source held (b.pushChild index) where
  kinds := h.kinds
  slack := by
    have := h.slack
    change b.tree.edges.length + (b.children ++ [index]).length + held ≤ b.count
    rw [List.length_append, List.length_singleton]
    omega
  pending := by
    intro child hc
    rcases List.mem_append.mp hc with hc | hc
    · exact h.pending child hc
    · rw [List.mem_singleton.mp hc]
      exact hi
  ranges := h.ranges

/-- Emits a node around the last pending children. -/
theorem Arena.node (h : Arena source held b) (kind : CstKind) {start stop : Nat}
    {below top : List Nat} (hpending : b.children = below ++ top)
    (hs : Fits source b → Spans source b top start stop) :
    ∃ index b', b.node kind (range start stop) top.length = some (index, b') ∧
      Arena source (held + 1) b' ∧ Grows b b' ∧ b'.children = below ∧
      Within source b' index start stop ∧ b'.count = b.count + 1 ∧
      b'.tree.kinds = b.tree.kinds ++ [kind] := by
  have hslack := h.slack
  rw [hpending, List.length_append] at hslack
  rw [SyntaxTreeBuilder.node_eq hpending]
  let core : NodeCore := ⟨range start stop, asU32 b.tree.edges.length, asU32 top.length⟩
  refine ⟨_, _, rfl, ?_⟩
  generalize hb' : SyntaxTreeBuilder.mk _ below _ = b'
  have hcores : b'.cores = b.cores ++ [core] := by rw [← hb']
  have hcount : b'.count = b.count + 1 := by rw [count, hcores, List.length_append]; rfl
  have hedges : b'.tree.edges = b.tree.edges ++ top := by rw [← hb']
  have hgrows : Grows b b' := ⟨_, hcores⟩
  have hbelow : b'.children = below := by rw [← hb']
  have hkinds : b'.tree.kinds = b.tree.kinds ++ [kind] := by rw [← hb']
  have hfit : Fits source b' → asU32 b.count = b.count ∧
      asU32 b.tree.edges.length = b.tree.edges.length ∧ asU32 top.length = top.length := by
    intro hf
    have := hf.2
    rw [hcount] at this
    exact ⟨asU32_eq (by omega), asU32_eq (by omega), asU32_eq (by omega)⟩
  have hrange : Fits source b' → ∃ hle, core.range = ⟨start, stop, hle⟩ := fun hf =>
    have hs := hs (hgrows.fits hf)
    ⟨hs.le, range_eq hs.le (Nat.le_trans hs.boundary'.le hf.1)⟩
  have hnew : Fits source b' → Within source b' b.count start stop := by
    intro hf
    have hs := hs (hgrows.fits hf)
    obtain ⟨hle, hcore⟩ := hrange hf
    refine ⟨by omega, fun _ => ⟨core, ?_, ?_⟩⟩
    · rw [hcores, List.getElem?_append_right le_rfl, Nat.sub_self]
      rfl
    · rw [hcore]
      exact ⟨⟨hs.boundary, hs.boundary'⟩, le_rfl, le_rfl⟩
  refine ⟨?_, hgrows, hbelow, ⟨?_, fun hf => ?_⟩, hcount, hkinds⟩
  · exact
      { kinds := by rw [hcount, ← h.kinds, hkinds, List.length_append]; rfl
        slack := by rw [hcount, hedges, hbelow, List.length_append]; omega
        pending := by
          intro child hc
          rw [hbelow] at hc
          have := h.pending child (by rw [hpending]; exact List.mem_append_left _ hc)
          omega
        ranges := by
          intro hf index c hc
          have hs := hs (hgrows.fits hf)
          rw [hcores] at hc
          rcases Nat.lt_or_ge index b.count with hlt | hge
          · -- an older node: its children are still there
            rw [List.getElem?_append_left hlt] at hc
            obtain ⟨hin, hbound, hnest⟩ := h.ranges (hgrows.fits hf) index c hc
            refine ⟨hin, by rw [hedges, List.length_append]; omega, ?_⟩
            rw [hedges, List.drop_append_of_le_length (by omega),
              List.take_append_of_le_length (by rw [List.length_drop]; omega)]
            intro child hchild
            obtain ⟨hlt', hwithin⟩ := hnest child hchild
            exact ⟨hlt', hwithin.mono hgrows le_rfl le_rfl⟩
          · -- the new node
            rw [List.getElem?_append_right hge] at hc
            have hindex : index = b.count := by
              have := (List.getElem?_eq_some_iff.mp hc).1
              rw [List.length_singleton] at this
              exact Nat.le_antisymm (Nat.sub_eq_zero_iff_le.mp (Nat.lt_one_iff.mp this)) hge
            subst hindex
            rw [Nat.sub_self] at hc
            cases hc
            obtain ⟨-, he₁, he₂⟩ := hfit hf
            obtain ⟨hle, hcore⟩ := hrange hf
            refine ⟨by rw [hcore]; exact ⟨hs.boundary, hs.boundary'⟩, ?_, ?_⟩
            · change asU32 _ + asU32 _ ≤ _
              rw [he₁, he₂, hedges, List.length_append]
            · change ∀ child ∈ (b'.tree.edges.drop (asU32 _)).take (asU32 _), _
              rw [he₁, he₂, hedges, List.drop_left, List.take_length, hcore]
              intro child hchild
              have hw := hs.children child hchild
              exact ⟨hw.1, hw.mono hgrows le_rfl le_rfl⟩ }
  · have := asU32_le b.count
    change asU32 b.count < b'.count
    omega
  · have hw := (hnew hf).2 hf
    obtain ⟨he₀, -, -⟩ := hfit hf
    change ∃ c, b'.cores[asU32 b.count]? = some c ∧ _
    rw [he₀]
    exact hw

/-- Every node of a well-formed arena passes the check, inside any range around it. -/
theorem Arena.validNode (h : Arena source held b) (hf : Fits source b) {root : Nat} (fuel : Nat)
    {index : Nat} (hfuel : index < fuel) {start stop : Nat} (hw : Within source b index start stop)
    (parent : Option TextRange)
    (hparent : ∀ range ∈ parent, range.start = start ∧ range.stop = stop) :
    validNode { b.tree with root } source fuel index parent = true := by
  induction fuel generalizing index start stop parent with
  | zero => exact absurd hfuel (Nat.not_lt_zero _)
  | succ fuel ih =>
    obtain ⟨core, hcore, hin, hl, hr⟩ := hw.2 hf
    obtain ⟨-, hbound, hnest⟩ := h.ranges hf index core hcore
    unfold Parser.validNode
    dsimp only
    rw [hcore]
    dsimp only
    rw [Bool.and_eq_true, Bool.and_eq_true, List.all_eq_true]
    refine ⟨⟨validRange_of_inSource hin, ?_⟩, ?_⟩
    · cases parent with
      | none => rfl
      | some range =>
        obtain ⟨hs, hs'⟩ := hparent range rfl
        simp only [Option.all_some, hs, hs', hl, hr, decide_true, Bool.and_self]
    · unfold SyntaxTree.children
      rw [if_pos hbound]
      intro child hchild
      obtain ⟨hlt, hwithin⟩ := hnest child hchild
      exact ih (by omega) hwithin _ fun range hrange => by cases hrange; exact ⟨rfl, rfl⟩

/-- The root is the last node, as long as the arena fits. -/
theorem finish_root (hpos : 0 < b.count) (hle : b.count ≤ 2 ^ 32) :
    b.finish.root = b.count - 1 := by
  change (b.count % 2 ^ 32 + (2 ^ 32 - 1)) % 2 ^ 32 = b.count - 1
  omega

theorem finish_eq (hpos : 0 < b.count) (hle : b.count ≤ 2 ^ 32) :
    b.finish = { b.tree with root := b.count - 1 } := by
  rw [← finish_root hpos hle]
  rfl

end SyntaxTreeBuilder

/-! ## The validity check -/

/-- The kind of the node around a whole file. -/
def FileFormat.rootKind : FileFormat → CstKind
  | .script => .document
  | .localisation => .localisationDocument

theorem isValidFor_eq (format : FileFormat) (source : List Char) (parts : ParseParts)
    (revision : Nat) :
    (ParsedFile.fromParts format source parts revision).isValidFor format source =
      (decide (parts.tree.kinds[parts.tree.root]? = some format.rootKind) &&
        validNode parts.tree source (parts.tree.cores.length + 1) parts.tree.root none &&
        parts.tokens.all (fun token => validRange token.range source) &&
        parts.errors.all fun error => validRange error.range source) := by
  unfold ParsedFile.isValidFor ParsedFile.fromParts
  simp only [beq_self_eq_true, Bool.true_and]
  congr 3
  cases format <;> cases parts.tree.kinds[parts.tree.root]? with
  | none => rfl
  | some kind => cases kind <;> rfl

/-- What a finished parse keeps of the invariant of its parser. -/
structure Finished (format : FileFormat) (source : List Char) (b : SyntaxTreeBuilder)
    (tokens : List SyntaxToken) (errors : List SyntaxError) : Prop where
  arena : b.Arena source 1
  kinds : b.tree.kinds.getLast? = some format.rootKind
  tokens : byteLen source ≤ u32Max → ∀ token ∈ tokens, InSource source token.range
  errors : b.Fits source → ∀ error ∈ errors, InSource source error.range

variable {format : FileFormat} {source : List Char} {b : SyntaxTreeBuilder}
  {tokens : List SyntaxToken} {errors : List SyntaxError}

theorem Finished.count_pos (h : Finished format source b tokens errors) : 0 < b.count := by
  have := h.arena.slack
  omega

/-- A parse that fits into `u32` is valid for its source. -/
theorem Finished.isValidFor (h : Finished format source b tokens errors) (hf : b.Fits source)
    (revision : Nat) :
    (ParsedFile.fromParts format source ⟨b.finish, tokens, errors⟩ revision).isValidFor format
      source = true := by
  have hpos := h.count_pos
  have hlast : b.count - 1 < b.count := Nat.sub_lt hpos Nat.one_pos
  have hcore : b.cores[b.count - 1]? = some b.cores[b.count - 1] := List.getElem?_eq_getElem hlast
  rw [isValidFor_eq, SyntaxTreeBuilder.finish_eq hpos hf.2]
  simp only [Bool.and_eq_true, decide_eq_true_eq, List.all_eq_true]
  refine ⟨⟨⟨?_, ?_⟩, fun token ht => ?_⟩, fun error he => ?_⟩
  · rw [← h.kinds, List.getLast?_eq_getElem?, ← h.arena.kinds]
  · refine h.arena.validNode hf _ (Nat.lt_succ_of_lt hlast)
      ⟨hlast, fun _ => ⟨_, hcore, ?_, le_rfl, le_rfl⟩⟩ none (by simp)
    exact (h.arena.ranges hf _ _ hcore).1
  · exact validRange_of_inSource (h.tokens hf.1 token ht)
  · exact validRange_of_inSource (h.errors hf error he)

theorem Finished.isValidFor_parts {parts : ParseParts} (htree : parts.tree = b.finish)
    (hcores : parts.tree.cores = b.cores) (h : Finished format source b parts.tokens parts.errors)
    (hlen : byteLen source ≤ u32Max) (hcount : parts.tree.cores.length ≤ 2 ^ 32) (revision : Nat) :
    (ParsedFile.fromParts format source parts revision).isValidFor format source = true := by
  rw [hcores] at hcount
  have := h.isValidFor ⟨hlen, hcount⟩ revision
  rw [← htree] at this
  exact this

end ParadoxCode.Parser
