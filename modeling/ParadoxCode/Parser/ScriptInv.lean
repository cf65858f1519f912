import ParadoxCode.Parser.Arena
import ParadoxCode.Parser.Script

/-!
# The invariant of the script parser

`Inv` is the invariant of the parser's state, for every guard: the cursor stands on a character
boundary, the arena is well formed, and tokens and errors have valid ranges. Each function of the
parser has a lemma that runs it from a state with `Inv`: it has a result, and the state it leaves
has `Inv` again. Here are the primitives and the scanners.

The functions that return a node raise `held`, the number of nodes that wait for a parent, by one.
-/

namespace ParadoxCode.Script

open ParadoxCode.Parser
open ParadoxCode.Parser.SyntaxTreeBuilder (Fits Grows Spans)

/-! ## The invariant -/

namespace Parser

variable {σ : Type}

/-- The pending child indices. -/
abbrev pending (p : Parser σ) : List Nat := p.tree.children

end Parser

section

variable {σ : Type} (source : List Char)

/-- The node `index` of the parser's arena lies between two offsets. -/
abbrev Within (p : Parser σ) (index start stop : Nat) : Prop :=
  p.tree.Within source index start stop

/-- The cursor is in the source, and at its end when the guard has stopped the parse. `K` is what is
known of the guard's state. -/
structure Ready (K : σ → Prop) (p : Parser σ) : Prop where
  guardState : K p.guardState
  le : p.position ≤ byteLen source
  halted : p.stopped = true → p.position = byteLen source

/-- The invariant of the parser. -/
structure Inv (K : σ → Prop) (held : Nat) (p : Parser σ) : Prop where
  ready : Ready source K p
  boundary : Boundary source p.position
  nodes : p.nodes = p.tree.count
  arena : p.tree.Arena source held
  tokens : byteLen source ≤ u32Max → ∀ token ∈ p.tokens, InSource source token.range
  errors : p.tree.Fits source → ∀ error ∈ p.errors, InSource source error.range

/-- The parser only moves forward: nodes are added and the cursor does not move back. -/
structure Ext (p p' : Parser σ) : Prop where
  grows : p.tree.Grows p'.tree
  position : p.position ≤ p'.position

end

section

variable {σ : Type} {guard : Option (Guard σ)} {source : List Char} {K : σ → Prop} {held : Nat}
  {p p' p'' : Parser σ}

theorem Ext.refl (p : Parser σ) : Ext p p := ⟨Grows.refl _, le_rfl⟩

theorem Ext.trans (h : Ext p p') (h' : Ext p' p'') : Ext p p'' :=
  ⟨h.grows.trans h'.grows, Nat.le_trans h.position h'.position⟩

/-- Emitted nodes keep their ranges. -/
theorem Within.mono {index start stop start' stop' : Nat} (h : Within source p index start stop)
    (hext : Ext p p') (hstart : start' ≤ start) (hstop : stop ≤ stop') :
    Within source p' index start' stop' :=
  SyntaxTreeBuilder.Within.mono h hext.grows hstart hstop

variable {start stop : Nat}

theorem Within.ext {index : Nat} (h : Within source p index start stop) (hext : Ext p p') :
    Within source p' index start stop := h.mono hext le_rfl le_rfl

theorem Ext.of_tree (htree : p'.tree = p.tree) (hle : p.position ≤ p'.position) : Ext p p' :=
  ⟨by rw [htree]; exact Grows.refl _, hle⟩

/-! ## Primitives -/

/-- The guard keeps `K` when it is called with an offset of the source. -/
def Keeps (guard : Option (Guard σ)) (source : List Char) (K : σ → Prop) : Prop :=
  ∀ g ∈ guard, ∀ state offset nodes depth, K state → offset ≤ byteLen source →
    K (g state offset nodes depth).2

theorem Ready.running (h : Ready source K p) (hlt : p.position < byteLen source) :
    p.stopped = false := by
  cases hs : p.stopped with
  | false => rfl
  | true => have := h.halted hs; omega

theorem Ready.move (h : Ready source K p) (hs : p.stopped = false) (position : Nat)
    (hle : position ≤ byteLen source) : Ready source K { p with position } :=
  ⟨h.guardState, hle, fun h' => absurd h' (by rw [hs]; exact Bool.false_ne_true)⟩

/-- Only the cursor, the work counter and the guard moved. -/
structure Idle (source : List Char) (K : σ → Prop) (p p' : Parser σ) : Prop where
  ready : Ready source K p'
  tree : p'.tree = p.tree
  nodes : p'.nodes = p.nodes
  tokens : p'.tokens = p.tokens
  errors : p'.errors = p.errors

theorem Idle.trans (h : Idle source K p p') (h' : Idle source K p' p'') : Idle source K p p'' :=
  ⟨h'.ready, h'.tree.trans h.tree, h'.nodes.trans h.nodes, h'.tokens.trans h.tokens,
    h'.errors.trans h.errors⟩

theorem Idle.refl (h : Ready source K p) : Idle source K p p := ⟨h, rfl, rfl, rfl, rfl⟩

theorem Ready.idle_move (h : Ready source K p) (hs : p.stopped = false) (position : Nat)
    (hle : position ≤ byteLen source) : Idle source K p { p with position } :=
  ⟨h.move hs position hle, rfl, rfl, rfl, rfl⟩

theorem Idle.ext (h : Idle source K p p') (hle : p.position ≤ p'.position) : Ext p p' :=
  Ext.of_tree h.tree hle

theorem Inv.idle (h : Inv source K held p) (hi : Idle source K p p')
    (hb : Boundary source p'.position) : Inv source K held p' where
  ready := hi.ready
  boundary := hb
  nodes := by rw [hi.nodes, h.nodes, hi.tree]
  arena := by rw [hi.tree]; exact h.arena
  tokens := by rw [hi.tokens]; exact h.tokens
  errors := by rw [hi.errors, hi.tree]; exact h.errors

/-- Counting work leaves the cursor where it is, or moves it to the end and says to stop. -/
theorem checkWork_idle (hK : Keeps guard source K) (h : Ready source K p) (force : Bool) :
    ∃ goOn p', checkWork guard source force p = some (goOn, p') ∧ Idle source K p p' ∧
      p.position ≤ p'.position ∧
      (goOn = true → p'.position = p.position ∧ p'.stopped = false) ∧
      (goOn = false → p'.position = byteLen source) := by
  unfold checkWork
  cases hs : p.stopped with
  | true =>
    exact ⟨_, _, rfl, Idle.refl h, le_rfl, by rintro ⟨⟩, fun _ => h.halted hs⟩
  | false =>
    rw [if_neg Bool.false_ne_true]
    dsimp only
    have hidle : Idle source K p { p with work := p.work + 1, stopped := false } :=
      ⟨⟨h.guardState, h.le, by rintro ⟨⟩⟩, rfl, rfl, rfl, rfl⟩
    cases guard with
    | none =>
      exact ⟨_, _, rfl, hidle, le_rfl, fun _ => ⟨rfl, rfl⟩, by rintro ⟨⟩⟩
    | some g =>
      dsimp only
      have hk := hK g rfl p.guardState p.position p.nodes p.depth h.guardState h.le
      split_ifs with hf hg
      · exact ⟨_, _, rfl, ⟨⟨hk, h.le, by rintro ⟨⟩⟩, rfl, rfl, rfl, rfl⟩, le_rfl,
          fun _ => ⟨rfl, rfl⟩, by rintro ⟨⟩⟩
      · exact ⟨_, _, rfl, ⟨⟨hk, le_rfl, fun _ => rfl⟩, rfl, rfl, rfl, rfl⟩, h.le,
          by rintro ⟨⟩, fun _ => rfl⟩
      · exact ⟨_, _, rfl, hidle, le_rfl, fun _ => ⟨rfl, rfl⟩, by rintro ⟨⟩⟩

/-- The cursor after scanning `count` bytes: behind them, or at the end. -/
def Scanned (source : List Char) (K : σ → Prop) (count : Nat) (p p' : Parser σ) : Prop :=
  Idle source K p p' ∧ p.position ≤ p'.position ∧
    (p'.position = p.position + count ∨ p'.position = byteLen source)

theorem Scanned.cons {count : Nat} (h : Idle source K p p') (hpos : p'.position = p.position + 1)
    (h' : Scanned source K count p' p'') : Scanned source K (count + 1) p p'' := by
  obtain ⟨hi, hle, hp⟩ := h'
  refine ⟨h.trans hi, by omega, ?_⟩
  rcases hp with hp | hp
  · exact Or.inl (by omega)
  · exact Or.inr hp

variable {bytes : List UInt8}

theorem skipLoop_scanned (hK : Keeps guard source K) (continues : UInt8 → Bool)
    (h : Ready source K p) (hb : bytesAt source p.position = bytes) :
    ∃ p', skipLoop guard source continues bytes p = some ((), p') ∧
      Scanned source K (bytes.takeWhile continues).length p p' := by
  induction bytes generalizing p with
  | nil => exact ⟨p, rfl, Idle.refl h, le_rfl, Or.inl rfl⟩
  | cons byte bytes ih =>
    have hlt := lt_of_bytesAt hb
    unfold skipLoop
    by_cases hc : continues byte = true
    · obtain ⟨goOn, p₁, h₁, hi, hle, hgo, hstop⟩ := checkWork_idle hK h false
      rw [if_pos hc, Run.bind_of_eq_some h₁, List.takeWhile_cons_of_pos hc]
      cases goOn with
      | false => exact ⟨p₁, rfl, hi, hle, Or.inr (hstop rfl)⟩
      | true =>
        obtain ⟨hpos, hrun⟩ := hgo rfl
        have hi₁ := hi.trans (hi.ready.idle_move hrun (p₁.position + 1) (by omega))
        obtain ⟨p₂, h₂, hs₂⟩ := ih hi₁.ready (by rw [hpos]; exact bytesAt_succ hb)
        exact ⟨p₂, h₂, Scanned.cons hi₁ (by rw [hpos]) hs₂⟩
    · rw [if_neg hc, List.takeWhile_cons_of_neg hc]
      exact ⟨p, rfl, Idle.refl h, le_rfl, Or.inl rfl⟩

theorem bareLoop_scanned (hK : Keeps guard source K)
    (h : Ready source K p) (hb : bytesAt source p.position = bytes) :
    ∃ p', bareLoop guard source bytes p = some ((), p') ∧
      Scanned source K
        (bytes.takeWhile fun byte => !(isAsciiWhitespace byte || isDelimiter byte)).length p
          p' := by
  induction bytes generalizing p with
  | nil => exact ⟨p, rfl, Idle.refl h, le_rfl, Or.inl rfl⟩
  | cons byte bytes ih =>
    have hlt := lt_of_bytesAt hb
    unfold bareLoop
    obtain ⟨goOn, p₁, h₁, hi, hle, hgo, hstop⟩ := checkWork_idle hK h false
    rw [Run.bind_of_eq_some h₁]
    cases goOn with
    | false => exact ⟨p₁, rfl, hi, hle, Or.inr (hstop rfl)⟩
    | true =>
      obtain ⟨hpos, hrun⟩ := hgo rfl
      rw [if_pos rfl]
      by_cases hc : (isAsciiWhitespace byte || isDelimiter byte) = true
      · rw [if_pos hc, List.takeWhile_cons_of_neg (by rw [hc]; decide)]
        exact ⟨p₁, rfl, hi, hle, Or.inl hpos⟩
      · rw [if_neg hc, List.takeWhile_cons_of_pos (by simpa using hc)]
        have hi₁ := hi.trans (hi.ready.idle_move hrun (p₁.position + 1) (by omega))
        obtain ⟨p₂, h₂, hs₂⟩ := ih hi₁.ready (by rw [hpos]; exact bytesAt_succ hb)
        exact ⟨p₂, h₂, Scanned.cons hi₁ (by rw [hpos]) hs₂⟩

theorem pushToken_inv (h : Inv source K held p) (kind : TokenKind)
    (hstart : Boundary source start) (hle : start ≤ p.position) :
    ∃ p', pushToken kind start p = some ((), p') ∧ Inv source K held p' ∧
      p'.tree = p.tree ∧ p'.position = p.position := by
  refine ⟨_, rfl, { h with ready := { h.ready with }, tokens := fun he token ht => ?_ }, rfl, rfl⟩
  rcases List.mem_append.mp ht with ht | ht
  · exact h.tokens he token ht
  · rw [List.mem_singleton.mp ht]
    exact inSource_range he hle hstart h.boundary

theorem error_inv (h : Inv source K held p) (kind : SyntaxErrorKind)
    (message : String) (hr : p.tree.Fits source → InSource source (range start stop)) :
    ∃ p', error kind start stop message p = some ((), p') ∧ Inv source K held p' ∧
      p'.tree = p.tree ∧ p'.position = p.position := by
  refine ⟨_, rfl, { h with ready := { h.ready with }, errors := fun he e ht => ?_ }, rfl, rfl⟩
  rcases List.mem_append.mp ht with ht | ht
  · exact h.errors he e ht
  · rw [List.mem_singleton.mp ht]
    exact hr he

theorem push_inv {index : Nat} (h : Inv source K (held + 1) p) (hi : index < p.tree.count) :
    ∃ p', push index p = some ((), p') ∧ Inv source K held p' ∧ Ext p p' ∧
      p'.pending = p.pending ++ [index] ∧ p'.position = p.position :=
  ⟨_, rfl, { h with ready := { h.ready with }, arena := h.arena.pushChild hi },
    ⟨⟨[], (List.append_nil _).symm⟩, le_rfl⟩, rfl, rfl⟩

theorem emit_inv (h : Inv source K held p) (kind : CstKind)
    {below top : List Nat} (hpending : p.pending = below ++ top)
    (hs : p.tree.Fits source → p.tree.Spans source top start stop) :
    ∃ index p', emit kind (range start stop) top.length p = some (index, p') ∧
      Inv source K (held + 1) p' ∧ Ext p p' ∧ p'.pending = below ∧
      Within source p' index start stop ∧ p'.position = p.position := by
  obtain ⟨index, b', hb', harena, hgrows, hbelow, hw, hcount, -⟩ := h.arena.node kind hpending hs
  refine ⟨index, { p with nodes := p.nodes + 1, tree := b' }, ?_, ?_, ⟨hgrows, le_rfl⟩, hbelow,
    hw, rfl⟩
  · unfold emit
    rw [hb']
    rfl
  · exact
      { h with
        ready := { h.ready with }
        nodes := by rw [hcount, h.nodes]
        arena := harena
        errors := fun hf => h.errors (hgrows.fits hf) }

theorem node_inv (hK : Keeps guard source K) (h : Inv source K held p) (kind : CstKind)
    {below top : List Nat} (hpending : p.pending = below ++ top)
    (hs : p.tree.Fits source → p.tree.Spans source top start stop) :
    ∃ index p', node guard source kind start stop top.length p = some (index, p') ∧
      Inv source K (held + 1) p' ∧ Ext p p' ∧ p'.pending = below ∧
      Within source p' index start stop := by
  obtain ⟨goOn, p₁, h₁, hi, hle, hgo, hstop⟩ := checkWork_idle hK h.ready true
  have hb : Boundary source p₁.position := by
    cases goOn with
    | true => rw [(hgo rfl).1]; exact h.boundary
    | false => rw [hstop rfl]; exact Boundary.end source
  obtain ⟨index, p₂, h₂, hinv, hext₂, hbelow, hw, -⟩ := emit_inv (h.idle hi hb) kind
    (by rw [Parser.pending, hi.tree]; exact hpending) (by rw [hi.tree]; exact hs)
  refine ⟨index, p₂, ?_, hinv, (hi.ext hle).trans hext₂, hbelow, hw⟩
  unfold node
  rw [Run.bind_of_eq_some h₁, h₂]

/-- What a function leaves that emits a node between `start` and the cursor and returns it. -/
structure Gives (source : List Char) (K : σ → Prop) (held start index : Nat) (p p' : Parser σ) :
    Prop where
  inv : Inv source K (held + 1) p'
  ext : Ext p p'
  pending : p'.pending = p.pending
  within : Within source p' index start p'.position

theorem leaf_gives (hK : Keeps guard source K) (h : Inv source K held p) (kind : CstKind)
    (hle : start ≤ stop) (hstart : Boundary source start)
    (hstop : Boundary source stop) (hpos : stop ≤ p.position) :
    ∃ index p', node guard source kind start stop 0 p = some (index, p') ∧
      Gives source K held start index p p' := by
  obtain ⟨index, p', h', hinv, hext, hpending, hw⟩ := node_inv hK h kind
    (List.append_nil _).symm fun _ => ⟨hle, hstart, hstop, by simp⟩
  exact ⟨index, p', h', hinv, hext, hpending,
    hw.mono (Ext.refl _) le_rfl (Nat.le_trans hpos hext.position)⟩

/-! ## Boundaries -/

theorem Scanned.boundary {count : Nat} (h : Scanned source K count p p')
    (hb : Boundary source (p.position + count)) : Boundary source p'.position := by
  rcases h.2.2 with hp | hp <;> rw [hp]
  · exact hb
  · exact Boundary.end source

theorem isDelimiter_lt {byte : UInt8} (h : isDelimiter byte = true) : byte.toNat < 0x80 := by
  simp only [isDelimiter, Bool.or_eq_true, beq_iff_eq] at h
  rcases h with
    (((((((((rfl | rfl) | rfl) | rfl) | rfl) | rfl) | rfl) | rfl) | rfl) | rfl) | rfl <;>
    decide

/-! ## Scanners -/

theorem skipWhitespace_inv (hK : Keeps guard source K) (h : Inv source K held p) :
    ∃ p', skipWhitespace guard source p = some ((), p') ∧ Inv source K held p' ∧
      Idle source K p p' ∧ p.position ≤ p'.position := by
  obtain ⟨p', h', hs⟩ := skipLoop_scanned hK isAsciiWhitespace h.ready rfl
  have hb := hs.boundary (boundary_skip_ascii (fun _ => isAsciiWhitespace_lt) h.boundary rfl)
  exact ⟨p', h', h.idle hs.1 hb, hs.1, hs.2.1⟩

theorem Gives.trans {start index : Nat} (h : Gives source K held start index p' p'')
    (hext : Ext p p') (hpending : p'.pending = p.pending) : Gives source K held start index p p'' :=
  ⟨h.inv, hext.trans h.ext, h.pending.trans hpending, h.within⟩

/-- A token and a leaf node over the bytes just scanned. -/
theorem token_leaf (hK : Keeps guard source K) (h : Inv source K held p) (token : TokenKind)
    (kind : CstKind) (hstart : Boundary source start) (hle : start ≤ p.position) :
    ∃ index p₁ p', pushToken token start p = some ((), p₁) ∧ p₁.position = p.position ∧
      node guard source kind start p.position 0 p₁ = some (index, p') ∧
      Gives source K held start index p p' := by
  obtain ⟨p₁, h₁, hinv, htree, hpos⟩ := pushToken_inv h token hstart hle
  obtain ⟨index, p', h', hg⟩ := leaf_gives hK hinv kind hle hstart h.boundary
    (Nat.le_of_eq hpos.symm)
  exact ⟨index, p₁, p', h₁, hpos, h', hg.trans (Ext.of_tree htree
    (Nat.le_of_eq hpos.symm)) (by rw [Parser.pending, htree])⟩

theorem parseComment_inv (hK : Keeps guard source K) (h : Inv source K held p)
    (hb : bytesAt source p.position = 0x23 :: bytes) :
    ∃ index p', parseComment guard source p = some (index, p') ∧
      Gives source K held p.position index p p' ∧ p.position < p'.position := by
  obtain ⟨p₁, h₁, hs⟩ := skipLoop_scanned hK (fun byte => !(byte == 0x0D || byte == 0x0A)) h.ready
    hb
  have hbound := hs.boundary (boundary_skip_until (fun byte hc => ?_) h.ready.le hb)
  · obtain ⟨index, p₂, p', h₂, hpos₂, h', hg⟩ := token_leaf hK (h.idle hs.1 hbound)
      .comment .comment h.boundary hs.2.1
    refine ⟨index, p', ?_, hg.trans (hs.1.ext hs.2.1) (by rw [Parser.pending, hs.1.tree]), ?_⟩
    · unfold parseComment
      rw [position, Run.read_bind, rest, Run.read_bind, hb, Run.bind_of_eq_some h₁,
        Run.bind_of_eq_some h₂, Run.read_bind, hpos₂, h']
    · have := lt_of_bytesAt hb
      have := hg.ext.position
      rcases hs.2.2 with hp | hp
      · rw [List.takeWhile_cons_of_pos (by decide), List.length_cons] at hp
        omega
      · omega
  · simp only [Bool.not_eq_false', Bool.or_eq_true, beq_iff_eq] at hc
    rcases hc with rfl | rfl <;> decide

theorem parseBare_inv (hK : Keeps guard source K) (h : Inv source K held p) :
    (∃ p', parseBare guard source p = some (none, p') ∧ Inv source K held p' ∧
      Idle source K p p' ∧ p'.position = p.position ∧
      ∀ byte bytes, bytesAt source p.position = byte :: bytes → byte.toNat < 0x80) ∨
    ∃ index p', parseBare guard source p = some (some index, p') ∧
      Gives source K held p.position index p p' ∧ p.position < p'.position := by
  obtain ⟨p₁, h₁, hs⟩ := bareLoop_scanned hK h.ready rfl
  have hbound : Boundary source p₁.position := by
    refine hs.boundary (boundary_skip_until (fun byte hc => ?_) h.ready.le rfl)
    simp only [Bool.not_eq_false', Bool.or_eq_true] at hc
    rcases hc with hc | hc
    · exact isContinuation_of_lt (isAsciiWhitespace_lt hc)
    · exact isContinuation_of_lt (isDelimiter_lt hc)
  have hrun : ∀ {k : Option Nat × Parser σ}, (if p₁.position = p.position then pure none
      else do
        pushToken .bare p.position
        let index ← node guard source .bareValue p.position p₁.position 0
        pure (some index) : ParseM σ (Option Nat)) p₁ = some k →
      parseBare guard source p = some k := by
    intro k hk
    unfold parseBare
    rw [position, Run.read_bind, rest, Run.read_bind, Run.bind_of_eq_some h₁, Run.read_bind]
    exact hk
  by_cases heq : p₁.position = p.position
  · left
    refine ⟨p₁, hrun (by rw [if_pos heq]; rfl), h.idle hs.1 hbound, hs.1, heq, ?_⟩
    intro byte bytes hb
    have hlt := lt_of_bytesAt hb
    have hpos := hs.2.2
    rw [hb, heq] at hpos
    cases hbyte : isAsciiWhitespace byte || isDelimiter byte with
    | true =>
      rcases Bool.or_eq_true_iff.mp hbyte with hbyte | hbyte
      · exact isAsciiWhitespace_lt hbyte
      · exact isDelimiter_lt hbyte
    | false =>
      rw [List.takeWhile_cons_of_pos (by rw [hbyte]; decide), List.length_cons] at hpos
      omega
  · right
    obtain ⟨index, p₂, p', h₂, -, h', hg⟩ := token_leaf hK (h.idle hs.1 hbound) .bare .bareValue
      h.boundary hs.2.1
    refine ⟨index, p', hrun ?_, hg.trans (hs.1.ext hs.2.1) (by rw [Parser.pending, hs.1.tree]), ?_⟩
    · rw [if_neg heq, Run.bind_of_eq_some h₂, Run.bind_of_eq_some h']
      rfl
    · have := hg.ext.position
      have := hs.2.1
      omega

/-! ### Quoted strings -/

/-- A running parser moves its cursor over the character at it. -/
theorem advanceChar_idle (h : Ready source K p) (hb : Boundary source p.position)
    (hlt : p.position < byteLen source) :
    ∃ p', advanceChar source p = some (true, p') ∧ Idle source K p p' ∧
      Boundary source p'.position ∧ p.position < p'.position ∧ p'.stopped = false := by
  obtain ⟨c, bytes, hc⟩ := bytesAt_boundary hb hlt
  have hnext := hb.next hc
  have hsize := c.utf8Size_pos
  refine ⟨{ p with position := p.position + c.utf8Size }, ?_,
    h.idle_move (h.running hlt) _ hnext.le, hnext, Nat.lt_add_of_pos_right hsize, h.running hlt⟩
  unfold advanceChar nextChar
  rw [position, Run.bind_apply, Run.read_bind, isCharBoundary_iff.mpr hb, if_pos rfl, hc,
    Utf8.decodeFirst_encodeChar]
  rfl

theorem advanceEscape_idle (h : Ready source K p) (hb : Boundary source p.position)
    (hbytes : bytesAt source p.position = 0x5C :: bytes) :
    ∃ p', advanceEscape source p = some ((), p') ∧ Idle source K p p' ∧
      Boundary source p'.position ∧ p.position < p'.position := by
  have hlt := lt_of_bytesAt hbytes
  have hb₁ := boundary_succ hb hbytes (by decide)
  have hi₁ := h.idle_move (h.running hlt) (p.position + 1) hb₁.le
  unfold advanceEscape
  rw [advance, Run.modify_bind, position, Run.read_bind]
  by_cases hlt₁ : p.position + 1 < byteLen source
  · obtain ⟨p', h', hi, hb', hpos, -⟩ := advanceChar_idle hi₁.ready hb₁ hlt₁
    rw [if_pos hlt₁, Run.bind_of_eq_some h']
    exact ⟨p', rfl, hi₁.trans hi, hb', by dsimp only at hpos; omega⟩
  · rw [if_neg hlt₁]
    exact ⟨_, rfl, hi₁, hb₁, Nat.lt_succ_self _⟩

theorem quotedLoop_idle (hK : Keeps guard source K) (fuel : Nat) (h : Ready source K p)
    (hb : Boundary source p.position) (hfuel : byteLen source < p.position + fuel) :
    ∃ closed p', quotedLoop guard source fuel p = some (closed, p') ∧ Idle source K p p' ∧
      Boundary source p'.position ∧ p.position ≤ p'.position := by
  induction fuel generalizing p with
  | zero => have := h.le; omega
  | succ fuel ih =>
    unfold quotedLoop
    rw [peek, Run.read_bind]
    rcases Nat.lt_or_ge p.position (byteLen source) with hlt | hge
    · obtain ⟨byte, bytes, hbytes⟩ := bytesAt_of_lt hlt
      obtain ⟨goOn, p₁, h₁, hi₁, hle₁, hgo, hstop⟩ := checkWork_idle hK h false
      rw [hbytes]
      simp only [List.head?_cons]
      rw [Run.bind_of_eq_some h₁]
      cases goOn with
      | false =>
        exact ⟨false, p₁, rfl, hi₁, by rw [hstop rfl]; exact Boundary.end source, hle₁⟩
      | true =>
        obtain ⟨hpos₁, hrun₁⟩ := hgo rfl
        have hb₁ : Boundary source p₁.position := by rw [hpos₁]; exact hb
        have hbytes₁ : bytesAt source p₁.position = byte :: bytes := by rw [hpos₁]; exact hbytes
        rw [if_pos rfl]
        by_cases hquote : byte = 0x22
        · -- the closing quote
          subst hquote
          have hb₂ := boundary_succ hb₁ hbytes₁ (by decide)
          rw [if_pos rfl, advance, Run.modify_bind]
          exact ⟨true, _, rfl, hi₁.trans (hi₁.ready.idle_move hrun₁ _ hb₂.le), hb₂, by
            dsimp only; omega⟩
        rw [if_neg hquote]
        by_cases hslash : byte = 0x5C
        · -- an escape
          subst hslash
          obtain ⟨p₂, h₂, hi₂, hb₂, hpos₂⟩ := advanceEscape_idle hi₁.ready hb₁ hbytes₁
          obtain ⟨closed, p', h', hi', hb', hle'⟩ := ih hi₂.ready hb₂ (by omega)
          rw [if_pos rfl, Run.bind_of_eq_some h₂, h']
          exact ⟨closed, p', rfl, (hi₁.trans hi₂).trans hi', hb', by omega⟩
        · -- any other character
          obtain ⟨p₂, h₂, hi₂, hb₂, hpos₂, -⟩ :=
            advanceChar_idle hi₁.ready hb₁ (lt_of_bytesAt hbytes₁)
          obtain ⟨closed, p', h', hi', hb', hle'⟩ := ih hi₂.ready hb₂ (by omega)
          rw [if_neg hslash, Run.bind_of_eq_some h₂, if_pos rfl, h']
          exact ⟨closed, p', rfl, (hi₁.trans hi₂).trans hi', hb', by omega⟩
    · have hnil : bytesAt source p.position = [] := List.drop_eq_nil_of_le hge
      rw [hnil]
      exact ⟨false, p, rfl, Idle.refl h, hb, le_rfl⟩

theorem reportUnclosed_inv (h : Inv source K held p) (closed : Bool)
    (hr : p.tree.Fits source → InSource source (range start stop)) :
    ∃ p', reportUnclosed closed start stop p = some ((), p') ∧ Inv source K held p' ∧
      p'.tree = p.tree ∧ p'.position = p.position := by
  cases closed with
  | true => exact ⟨p, rfl, h, rfl, rfl⟩
  | false => exact error_inv h _ _ hr

theorem parseQuoted_inv (hK : Keeps guard source K) (h : Inv source K held p) (kind : CstKind)
    (hbytes : bytesAt source p.position = 0x22 :: bytes) :
    ∃ index p', parseQuoted guard source kind p = some (index, p') ∧
      Gives source K held p.position index p p' ∧ p.position < p'.position := by
  have hb₁ := boundary_succ h.boundary hbytes (by decide)
  have hi₁ := h.ready.idle_move (h.ready.running (lt_of_bytesAt hbytes)) _ hb₁.le
  obtain ⟨closed, p₂, h₂, hi₂, hb₂, hle₂⟩ := quotedLoop_idle hK (byteLen source + 1) hi₁.ready hb₁
    (by dsimp only; omega)
  have hi := hi₁.trans hi₂
  dsimp only at hle₂
  have hle : p.position ≤ p₂.position := by omega
  obtain ⟨p₃, h₃, hinv₃, htree₃, hpos₃⟩ := pushToken_inv (h.idle hi hb₂) .quoted h.boundary hle
  obtain ⟨p₄, h₄, hinv₄, htree₄, hpos₄⟩ := reportUnclosed_inv hinv₃ closed fun he =>
    inSource_range he.1 hle h.boundary hb₂
  obtain ⟨index, p', h', hg⟩ := leaf_gives hK hinv₄ kind hle h.boundary hb₂ (by omega)
  refine ⟨index, p', ?_, hg.trans (Ext.of_tree ?_ (by omega)) ?_, ?_⟩
  · unfold parseQuoted
    rw [position, Run.read_bind, advance, Run.modify_bind, Run.bind_of_eq_some h₂, Run.read_bind,
      Run.bind_of_eq_some h₃, Run.bind_of_eq_some h₄, h']
  · rw [htree₄, htree₃, hi.tree]
  · rw [Parser.pending, htree₄, htree₃, hi.tree]
  · have := hg.ext.position
    omega

/-! ### Operators, delimiters and recovery -/

/-- A step that leaves the tree alone. -/
structure Quiet (source : List Char) (K : σ → Prop) (held : Nat) (p p' : Parser σ) : Prop where
  inv : Inv source K held p'
  tree : p'.tree = p.tree
  le : p.position ≤ p'.position

theorem Quiet.ext (h : Quiet source K held p p') : Ext p p' := Ext.of_tree h.tree h.le

theorem Quiet.pending (h : Quiet source K held p p') : p'.pending = p.pending := by
  rw [Parser.pending, h.tree]

theorem Quiet.trans (h : Quiet source K held p p') (h' : Quiet source K held p' p'') :
    Quiet source K held p p'' := ⟨h'.inv, h'.tree.trans h.tree, Nat.le_trans h.le h'.le⟩

theorem Quiet.gives {index : Nat} (h : Quiet source K held p p')
    (hg : Gives source K held start index p' p'') : Gives source K held start index p p'' :=
  hg.trans h.ext h.pending

theorem operatorLength_spec {length : Nat}
    (h : operatorLength bytes = some length) : ∃ front more, bytes = front ++ more ∧
      front.length = length ∧ 0 < length ∧ ∀ byte ∈ front, byte.toNat < 0x80 := by
  unfold operatorLength at h
  split at h <;> cases h <;> first
    | exact ⟨[_, _], _, rfl, rfl, by decide, by simp⟩
    | exact ⟨[_], _, rfl, rfl, by decide, by simp⟩

theorem parseOperator_inv (hK : Keeps guard source K) (h : Inv source K held p) :
    parseOperator guard source p = some (none, p) ∨
    ∃ index p', parseOperator guard source p = some (some index, p') ∧
      Gives source K held p.position index p p' ∧ p.position < p'.position := by
  have hle := h.ready.le
  unfold parseOperator
  rw [position, Run.read_bind, if_neg (by omega), rest, Run.read_bind]
  cases hlen : operatorLength (bytesAt source p.position) with
  | none => exact Or.inl rfl
  | some length =>
    right
    obtain ⟨front, more, hbytes, rfl, hpos, hascii⟩ := operatorLength_spec hlen
    have hb := boundary_append h.boundary hbytes hascii
    have hlt : p.position < byteLen source := by have := hb.le; omega
    have hi := h.ready.idle_move (h.ready.running hlt) _ hb.le
    obtain ⟨index, p₂, p', h₂, hpos₂, h', hg⟩ := token_leaf hK (h.idle hi hb) .operator .operator
      h.boundary (Nat.le_add_right _ _)
    refine ⟨index, p', ?_, hg.trans (hi.ext (Nat.le_add_right _ _)) rfl, ?_⟩
    · dsimp only
      rw [advance, Run.modify_bind, Run.bind_of_eq_some h₂, Run.read_bind, hpos₂,
        Run.bind_of_eq_some h']
      rfl
    · have := hg.ext.position
      dsimp only at this
      omega

/-- `advanceOne` at an ASCII byte. -/
theorem advanceOne_idle (h : Inv source K held p) {byte : UInt8}
    (hb : bytesAt source p.position = byte :: bytes) (hascii : byte.toNat < 0x80) :
    ∃ p', advanceOne source p = some ((), p') ∧ Quiet source K held p p' ∧
      p'.position = p.position + 1 := by
  have hlt := lt_of_bytesAt hb
  have hbound := boundary_succ h.boundary hb hascii
  have hmin : min (p.position + 1) (byteLen source) = p.position + 1 := by omega
  refine ⟨{ p with position := p.position + 1 }, ?_,
    ⟨h.idle (h.ready.idle_move (h.ready.running hlt) _ hbound.le) hbound, rfl, ?_⟩, rfl⟩
  · rw [advanceOne, Run.modify_apply, hmin]
  · exact Nat.le_succ _

theorem consumeDelimiter_inv (h : Inv source K held p) (kind : TokenKind) {byte : UInt8}
    (hb : bytesAt source p.position = byte :: bytes) (hascii : byte.toNat < 0x80) :
    ∃ p', consumeDelimiter source kind p = some ((), p') ∧ Quiet source K held p p' ∧
      p'.position = p.position + 1 := by
  obtain ⟨p₁, h₁, hq, hpos⟩ := advanceOne_idle h hb hascii
  obtain ⟨p', h', hinv, htree, hpos'⟩ := pushToken_inv hq.inv kind h.boundary hq.le
  refine ⟨p', ?_, hq.trans ⟨hinv, htree, Nat.le_of_eq hpos'.symm⟩, hpos'.trans hpos⟩
  unfold consumeDelimiter
  rw [position, Run.read_bind, Run.bind_of_eq_some h₁, h']

theorem recover_inv (hK : Keeps guard source K) (h : Inv source K held p) {byte : UInt8}
    (hb : bytesAt source p.position = byte :: bytes)
    (hascii : byte.toNat < 0x80) (message : String → String) :
    ∃ index p', recover guard source p.position message p = some (index, p') ∧
      Gives source K held p.position index p p' ∧ p.position < p'.position := by
  obtain ⟨p₁, h₁, hq, hpos⟩ := advanceOne_idle h hb hascii
  obtain ⟨p₂, h₂, hinv, htree, hpos₂⟩ := error_inv hq.inv .unexpectedToken
    (message (snippet source p.position p₁.position))
    fun he => inSource_range he.1 hq.le h.boundary hq.inv.boundary
  obtain ⟨index, p', h', hg⟩ := leaf_gives hK hinv .error hq.le h.boundary hq.inv.boundary
    (Nat.le_of_eq hpos₂.symm)
  refine ⟨index, p', ?_, (hq.trans ⟨hinv, htree, Nat.le_of_eq hpos₂.symm⟩).gives hg, ?_⟩
  · unfold recover
    rw [Run.bind_of_eq_some h₁, position, Run.read_bind, Run.bind_of_eq_some h₂, h']
  · have := hg.ext.position
    omega

theorem closeOr_inv (h : Inv source K held p) {delimiter : UInt8} (hascii : delimiter.toNat < 0x80)
    (kind : SyntaxErrorKind) (message : String) (hstart : Boundary source start) :
    ∃ p', closeOr source delimiter kind start message p = some ((), p') ∧
      Quiet source K held p p' := by
  unfold closeOr
  rw [peek, Run.read_bind]
  by_cases hb : (bytesAt source p.position).head? = some delimiter
  · obtain ⟨bytes, hbytes⟩ := List.head?_eq_some_iff.mp hb
    rw [if_pos hb]
    obtain ⟨p', h', hq, -⟩ := consumeDelimiter_inv h .closeDelimiter hbytes hascii
    exact ⟨p', h', hq⟩
  · rw [if_neg hb]
    obtain ⟨p', h', hinv, htree, hpos⟩ := error_inv h kind message
      fun he => inSource_range he.1 hstart.le hstart (Boundary.end source)
    exact ⟨p', h', hinv, htree, Nat.le_of_eq hpos.symm⟩

end

end ParadoxCode.Script
