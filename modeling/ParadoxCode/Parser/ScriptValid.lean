import ParadoxCode.Parser.ScriptInv

/-!
# Every script parse is well formed

The grammar over the invariant of `ScriptInv`. The nested container is a parameter: `Consumes` is
what a block needs of it, and the loop of a container has it by induction on its fuel. A parse
therefore always has a result, and that result passes `isValidFor` when its source and its arena fit
into `u32`.
-/

namespace ParadoxCode.Script

open ParadoxCode.Parser
open ParadoxCode.Parser.SyntaxTreeBuilder (Fits Grows Spans)
open Run (bind_of_eq_some read_bind)

section

variable {σ : Type} {guard : Option (Guard σ)} {source : List Char} {K : σ → Prop} {held : Nat}
  {p p' p'' : Parser σ}

/-! ## Blocks -/

variable {byte : UInt8} {bytes : List UInt8}

theorem peek_cons {α : Type}
    (h : bytesAt source p.position = byte :: bytes) (k : Option UInt8 → ParseM σ α) :
    (peek source >>= k) p = k (some byte) p := by
  rw [peek, read_bind, h]
  rfl

/-- What a function leaves that queues nodes between two positions of the cursor. -/
structure Fills (source : List Char) (K : σ → Prop) (held : Nat) (p p' : Parser σ) : Prop where
  inv : Inv source K held p'
  ext : Ext p p'
  pending : ∃ new, p'.pending = p.pending ++ new ∧
    ∀ child ∈ new, Within source p' child p.position p'.position

theorem Fills.trans (h : Fills source K held p p') (h' : Fills source K held p' p'') :
    Fills source K held p p'' := by
  obtain ⟨new, hnew, hw⟩ := h.pending
  obtain ⟨new', hnew', hw'⟩ := h'.pending
  refine ⟨h'.inv, h.ext.trans h'.ext, new ++ new', ?_, ?_⟩
  · rw [hnew', hnew, List.append_assoc]
  · intro child hc
    rcases List.mem_append.mp hc with hc | hc
    · exact (hw child hc).mono h'.ext le_rfl h'.ext.position
    · exact (hw' child hc).mono (Ext.refl _) h.ext.position le_rfl

theorem Quiet.fills (h : Quiet source K held p p') : Fills source K held p p' :=
  ⟨h.inv, h.ext, [], by rw [h.pending, List.append_nil], by simp⟩

/-- A container that is entered behind the offset `least` has a result. -/
def Consumes (source : List Char) (K : σ → Prop) (least : Nat)
    (container : Option UInt8 → ParseM σ Unit) : Prop :=
  ∀ (terminator : Option UInt8) {held : Nat} {p : Parser σ}, Inv source K held p →
    least < p.position →
    ∃ p', container terminator p = some ((), p') ∧ Fills source K held p p'

variable {container : Option UInt8 → ParseM σ Unit} {least : Nat}

theorem Consumes.mono {least' : Nat} (h : Consumes source K least container)
    (hle : least ≤ least') :
    Consumes source K least' container := fun terminator _ _ hinv hlt =>
      h terminator hinv (Nat.lt_of_le_of_lt hle hlt)

theorem childrenSince_eq {new : List Nat} (h : p'.pending = p.pending ++ new) :
    childrenSince p.pending.length p' = some (new.length, p') := by
  unfold childrenSince SyntaxTreeBuilder.childrenSince
  rw [Parser.pending] at h
  rw [h, if_neg (by rw [List.length_append]; omega), List.length_append, Nat.add_sub_cancel_left]
  rfl

variable {start : Nat}

/-- The end of a block: its last delimiter and its node, whose children are `extra`, queued before,
and what its container queued. -/
theorem closing_gives (hK : Keeps guard source K) (h : Fills source K held p p')
    {below extra : List Nat} (hpending : p.pending = below ++ extra)
    (hextra : ∀ child ∈ extra, Within source p child start p.position)
    (hstart : Boundary source start) (hle : start ≤ p.position) (delimiter : UInt8)
    (hascii : delimiter.toNat < 0x80) (error : SyntaxErrorKind) (message : String)
    (kind : CstKind) :
    ∃ count index p₁ p'', childrenSince p.pending.length p' = some (count, p') ∧
      closeOr source delimiter error start message p' = some ((), p₁) ∧
      node guard source kind start (max p₁.position start) (count + extra.length) p₁ =
        some (index, p'') ∧
      Inv source K (held + 1) p'' ∧ Ext p p'' ∧ p''.pending = below ∧
      Within source p'' index start p''.position := by
  obtain ⟨new, hnew, hw⟩ := h.pending
  obtain ⟨p₁, h₁, hq⟩ := closeOr_inv h.inv hascii error message hstart
  have hle₁ : start ≤ p₁.position := Nat.le_trans hle (Nat.le_trans h.ext.position hq.le)
  have hpending₁ : p₁.pending = below ++ (extra ++ new) := by
    rw [hq.pending, hnew, hpending, List.append_assoc]
  have hspans : p₁.tree.Spans source (extra ++ new) start p₁.position := by
    refine ⟨hle₁, hstart, hq.inv.boundary, fun child hc => ?_⟩
    rcases List.mem_append.mp hc with hc | hc
    · exact (hextra child hc).mono (h.ext.trans hq.ext) le_rfl
        (Nat.le_trans h.ext.position hq.le)
    · exact (hw child hc).mono hq.ext hle hq.le
  obtain ⟨index, p'', h'', hinv, hext, hbelow, hwithin⟩ := node_inv hK hq.inv kind hpending₁
    fun _ => hspans
  refine ⟨new.length, index, p₁, p'', childrenSince_eq hnew, h₁, ?_, hinv,
    (h.ext.trans hq.ext).trans hext, hbelow, hwithin.mono (Ext.refl _) le_rfl hext.position⟩
  rw [Nat.max_eq_left hle₁, Nat.add_comm, ← List.length_append, h'']

theorem parseBlock_inv (hK : Keeps guard source K) (h : Inv source K held p)
    (hc : Consumes source K p.position container) (hb : bytesAt source p.position = 0x7B :: bytes) :
    ∃ index p', parseBlock guard source container p = some (index, p') ∧
      Gives source K held p.position index p p' ∧ p.position < p'.position := by
  obtain ⟨p₁, h₁, hq, hpos⟩ := consumeDelimiter_inv h .openDelimiter hb (by decide)
  obtain ⟨p₂, h₂, hf⟩ := hc (some 0x7D) hq.inv (by omega)
  obtain ⟨count, index, p₃, p', hcount, h₃, h', hinv, hext, hbelow, hw⟩ := closing_gives hK hf
    (List.append_nil _).symm (by simp) h.boundary hq.le 0x7D (by decide)
    .unterminatedBlock "script block is missing `\x7d`" .block
  refine ⟨index, p', ?_, hq.gives ⟨hinv, hext, hbelow, hw⟩, ?_⟩
  · unfold parseBlock consumeOpenBrace
    rw [position, read_bind, bind_of_eq_some (by rw [peek_cons hb, if_pos rfl, h₁]), childrenMark,
      read_bind, bind_of_eq_some h₂, bind_of_eq_some hcount, bind_of_eq_some h₃, read_bind]
    exact h'
  · have := hext.position
    omega

/-! ## Parameter blocks -/

theorem skipNegation_inv (h : Inv source K held p) :
    ∃ p', skipNegation source p = some ((), p') ∧ Quiet source K held p p' := by
  unfold skipNegation
  rw [peek, read_bind]
  by_cases hb : (bytesAt source p.position).head? = some 0x21
  · obtain ⟨bytes, hbytes⟩ := List.head?_eq_some_iff.mp hb
    have hbound := boundary_succ h.boundary hbytes (by decide)
    have hi := h.ready.idle_move (h.ready.running (lt_of_bytesAt hbytes)) _ hbound.le
    rw [if_pos hb]
    exact ⟨_, rfl, h.idle hi hbound, rfl, Nat.le_succ _⟩
  · rw [if_neg hb]
    exact ⟨p, rfl, h, rfl, le_rfl⟩

theorem closeCondition_inv (h : Inv source K held p) :
    ∃ p', closeCondition source p = some ((), p') ∧ Quiet source K held p p' := by
  unfold closeCondition
  rw [peek, read_bind]
  by_cases hb : (bytesAt source p.position).head? = some 0x5D
  · obtain ⟨bytes, hbytes⟩ := List.head?_eq_some_iff.mp hb
    obtain ⟨p', h', hq, -⟩ := consumeDelimiter_inv h .closeDelimiter hbytes (by decide)
    rw [if_pos hb]
    exact ⟨p', h', hq⟩
  · rw [if_neg hb, position, read_bind]
    obtain ⟨p', h', hinv, htree, hpos⟩ := error_inv h .unexpectedToken
      "parameter condition is missing `]`"
      fun he => inSource_range he.1 le_rfl h.boundary h.boundary
    exact ⟨p', h', hinv, htree, Nat.le_of_eq hpos.symm⟩

/-- The condition between `start` and the end of the scalar, or an error node in its place. -/
theorem conditionOrError_inv (hK : Keeps guard source K) (h : Inv source K held p)
    (hstart : Boundary source start) (hle : start ≤ p.position) :
    ∃ scalar condition p₁ p', parseBare guard source p = some (scalar, p₁) ∧
      conditionOrError guard source scalar start p₁.position p₁ = some (condition, p') ∧
      Gives source K held start condition p p' ∧ Within source p' condition start p₁.position ∧
      Boundary source p₁.position ∧ start ≤ p₁.position ∧ p₁.position ≤ p'.position := by
  rcases parseBare_inv hK h with ⟨p₁, h₁, hinv, hi, hpos, -⟩ | ⟨index, p₁, h₁, hg, hlt⟩
  · -- no scalar: an error node
    have hle₁ : start ≤ p₁.position := by omega
    obtain ⟨p₂, h₂, hinv₂, htree₂, hpos₂⟩ := error_inv hinv .unexpectedToken
      "parameter block is missing a condition"
      fun he => inSource_range he.1 hle₁ hstart hinv.boundary
    obtain ⟨index, p', h', hinv', hext, hpending, hw⟩ := node_inv hK hinv₂ .error
      (List.append_nil _).symm fun _ => ⟨hle₁, hstart, hinv.boundary, by simp⟩
    have hext₁ : Ext p p' := by
      have hext₂ : Ext p₁ p₂ := Ext.of_tree htree₂ (Nat.le_of_eq hpos₂.symm)
      exact (hi.ext (Nat.le_of_eq hpos.symm)).trans (hext₂.trans hext)
    have hpos' : p₁.position ≤ p'.position := hpos₂ ▸ hext.position
    refine ⟨none, index, p₁, p', h₁, ?_, ⟨hinv', hext₁, ?_, ?_⟩, hw, hinv.boundary, hle₁, hpos'⟩
    · exact (bind_of_eq_some h₂).trans h'
    · rw [hpending, Parser.pending, htree₂, hi.tree]
    · exact hw.mono (Ext.refl _) le_rfl hpos'
  · have hw : Within source p₁ index start p₁.position :=
      hg.within.mono (Ext.refl _) hle le_rfl
    exact ⟨some index, index, p₁, p₁, h₁, rfl, ⟨hg.inv, hg.ext, hg.pending, hw⟩, hw,
      hg.inv.boundary, by omega, le_rfl⟩

theorem parseCondition_inv (hK : Keeps guard source K) (h : Inv source K held p) :
    ∃ index p', parseCondition guard source p = some ((), p') ∧ Inv source K held p' ∧ Ext p p' ∧
      p'.pending = p.pending ++ [index] ∧ Within source p' index p.position p'.position := by
  obtain ⟨p₁, h₁, hq₁⟩ := skipNegation_inv h
  obtain ⟨scalar, condition, p₂, p₃, h₂, h₃, hg, hw, hb, hle, hle'⟩ :=
    conditionOrError_inv hK hq₁.inv h.boundary hq₁.le
  obtain ⟨p₄, h₄, hinv₄, hi₄, hle₄⟩ := skipWhitespace_inv hK hg.inv
  have hq₄ : Quiet source K (held + 1) p₃ p₄ := ⟨hinv₄, hi₄.tree, hle₄⟩
  obtain ⟨p₅, h₅, hq₅⟩ := closeCondition_inv hinv₄
  have hq := hq₄.trans hq₅
  obtain ⟨p₆, h₆, hinv₆, hext₆, hpending₆, -⟩ :=
    push_inv hq.inv (hw.ext hq.ext).1
  obtain ⟨index, p₇, h₇, hinv₇, hext₇, hpending₇, hw₇⟩ := node_inv hK hinv₆ .parameterCondition
    hpending₆ fun _ => ⟨hle, h.boundary, hb, by
      intro child hc
      rw [List.mem_singleton.mp hc]
      exact (hw.ext hq.ext).ext hext₆⟩
  obtain ⟨p', h', hinv', hext', hpending', -⟩ := push_inv hinv₇ hw₇.1
  have hext₃ : Ext p₃ p' := ((hq.ext.trans hext₆).trans hext₇).trans hext'
  refine ⟨index, p', ?_, hinv', (hq₁.ext.trans hg.ext).trans hext₃, ?_, ?_⟩
  · unfold parseCondition
    rw [position, read_bind, bind_of_eq_some h₁, bind_of_eq_some h₂, read_bind,
      bind_of_eq_some h₃, bind_of_eq_some h₄, bind_of_eq_some h₅,
      bind_of_eq_some h₆]
    exact (bind_of_eq_some h₇).trans h'
  · rw [hpending', hpending₇, hq.pending, hg.pending, hq₁.pending]
  · exact hw₇.mono hext' le_rfl (Nat.le_trans hle' hext₃.position)

theorem parseParameterBlock_inv (hK : Keeps guard source K) (h : Inv source K held p)
    (hc : Consumes source K p.position container)
    (hb : bytesAt source p.position = 0x5B :: 0x5B :: bytes) :
    ∃ index p', parseParameterBlock guard source container p = some (index, p') ∧
      Gives source K held p.position index p p' ∧ p.position < p'.position := by
  obtain ⟨p₁, h₁, hq₁, hpos₁⟩ := consumeDelimiter_inv h .openDelimiter hb (by decide)
  obtain ⟨p₂, h₂, hq₂, hpos₂⟩ := consumeDelimiter_inv hq₁.inv .openDelimiter
    (by rw [hpos₁]; exact bytesAt_succ hb) (by decide)
  have hq := hq₁.trans hq₂
  obtain ⟨condition, p₃, h₃, hinv₃, hext₃, hpending₃, hw₃⟩ := parseCondition_inv hK hq₂.inv
  have hpos₃ := hext₃.position
  obtain ⟨p₄, h₄, hf⟩ := hc (some 0x5D) hinv₃ (by omega)
  obtain ⟨count, index, p₅, p', hcount, h₅, h', hinv, hext, hbelow, hw⟩ := closing_gives hK hf
    hpending₃ (by simpa using hw₃.mono (Ext.refl _) hq.le le_rfl) h.boundary (by omega) 0x5D
    (by decide) .unterminatedParameterBlock "parameter block is missing `]`" .parameterBlock
  refine ⟨index, p', ?_, hq.gives ⟨hinv, hext₃.trans hext, hbelow, hw⟩, ?_⟩
  · unfold parseParameterBlock
    rw [position, read_bind, bind_of_eq_some h₁, bind_of_eq_some h₂,
      bind_of_eq_some h₃, childrenMark, read_bind, bind_of_eq_some h₄,
      bind_of_eq_some hcount, bind_of_eq_some h₅, read_bind]
    exact h'
  · have := hext.position
    omega

/-! ## Values and properties -/

/-- An existing node can be looked up. -/
theorem nodeRange_eq {index stop : Nat} (h : Within source p index start stop) :
    ∃ range, nodeRange index p = some (range, p) ∧ Within source p index range.start range.stop ∧
      (p.tree.Fits source → InSource source range ∧ start ≤ range.start ∧ range.stop ≤ stop) := by
  obtain ⟨range, hrange, hw, hinside⟩ := SyntaxTreeBuilder.Within.nodeRange h
  refine ⟨range, ?_, hw, hinside⟩
  unfold nodeRange
  rw [hrange]
  rfl

theorem parseHeader_inv (hK : Keeps guard source K) (h : Inv source K (held + 1) p)
    (hc : Consumes source K p.position container) {first : Nat} (hstart : Boundary source start)
    (hle : start ≤ p.position) (hw : Within source p first start p.position)
    (hb : bytesAt source p.position = 0x7B :: bytes) :
    ∃ index p', parseHeader guard source container start first p = some (index, p') ∧
      Gives source K held start index p p' ∧ p.position < p'.position := by
  obtain ⟨block, p₁, h₁, hg, hlt⟩ := parseBlock_inv hK h hc hb
  obtain ⟨blockRange, h₂, hw₂, hr₂⟩ := nodeRange_eq hg.within
  obtain ⟨p₂, h₃, hinv₂, hext₂, hpending₂, hpos₂⟩ := push_inv hg.inv (hw.ext hg.ext).1
  obtain ⟨p₃, h₄, hinv₃, hext₃, hpending₃, hpos₃⟩ := push_inv hinv₂ (hw₂.ext hext₂).1
  have hext₁₃ := hext₂.trans hext₃
  have hpending : p₃.pending = p.pending ++ [first, block] := by
    rw [hpending₃, hpending₂, hg.pending, List.append_assoc]
    rfl
  have hspans : p₃.tree.Fits source → p₃.tree.Spans source [first, block] start
    blockRange.stop := by
    intro he
    obtain ⟨hin, hl, hr⟩ := hr₂ (hext₁₃.grows.fits he)
    have := blockRange.le
    refine ⟨by omega, hstart, hin.2, ?_⟩
    intro child hchild
    rcases List.mem_pair.mp hchild with rfl | rfl
    · exact hw.mono (hg.ext.trans hext₁₃) le_rfl (by omega)
    · exact hw₂.mono hext₁₃ (by omega) le_rfl
  obtain ⟨index, p', h', hinv, hext, hbelow, hw'⟩ := node_inv hK hinv₃ .headerBlock hpending hspans
  refine ⟨index, p', ?_, ⟨hinv, (hg.ext.trans hext₁₃).trans hext, hbelow, ?_⟩, ?_⟩
  · unfold parseHeader
    rw [bind_of_eq_some h₁, bind_of_eq_some h₂, bind_of_eq_some h₃,
      bind_of_eq_some h₄]
    exact h'
  · refine hw'.widen fun he => ⟨le_rfl, ?_⟩
    obtain ⟨-, -, hr⟩ := hr₂ (hext₁₃.grows.fits (hext.grows.fits he))
    exact Nat.le_trans hr (hext₁₃.trans hext).position
  · exact Nat.lt_of_lt_of_le hlt (hext₁₃.trans hext).position

theorem parseValue_inv (hK : Keeps guard source K) (h : Inv source K held p)
    (hc : Consumes source K p.position container) (hlt : p.position < byteLen source) :
    ∃ index p', parseValue guard source container p = some (index, p') ∧
      Gives source K held p.position index p p' ∧ p.position < p'.position := by
  obtain ⟨byte, bytes, hb⟩ := bytesAt_of_lt hlt
  unfold parseValue
  rw [position, read_bind, peek_cons hb]
  by_cases hquote : byte = 0x22
  · subst hquote
    rw [if_pos rfl]
    exact parseQuoted_inv hK h .quotedString hb
  rw [if_neg (by simpa using hquote)]
  by_cases hbrace : byte = 0x7B
  · subst hbrace
    rw [if_pos rfl]
    exact parseBlock_inv hK h hc hb
  rw [if_neg (by simpa using hbrace), startsParameterBlock, bind_of_eq_some (read_bind _ _ _)]
  by_cases hparameter : (bytesAt source p.position).take 2 = [0x5B, 0x5B]
  · obtain ⟨more, hmore⟩ : ∃ more, bytesAt source p.position = 0x5B :: 0x5B :: more :=
      ⟨_, by rw [← List.take_append_drop 2 (bytesAt source p.position), hparameter]; rfl⟩
    rw [if_pos (by simpa using hparameter)]
    exact parseParameterBlock_inv hK h hc hmore
  rw [if_neg (by simpa using hparameter)]
  rcases parseBare_inv hK h with ⟨p₁, h₁, hinv, hi, hpos, hascii⟩ | ⟨value, p₁, h₁, hg, hlt₁⟩
  · -- a byte that starts no value
    rw [bind_of_eq_some h₁]
    have hb₁ : bytesAt source p₁.position = byte :: bytes := by rw [hpos, hb]
    obtain ⟨index, p', h', hg, hlt'⟩ := recover_inv hK hinv hb₁ (hascii byte bytes hb)
      fun text => "expected a value, found `" ++ text ++ "`"
    rw [hpos] at h' hg hlt'
    exact ⟨index, p', h', hg.trans (hi.ext (Nat.le_of_eq hpos.symm))
      (by rw [Parser.pending, hi.tree]), hlt'⟩
  · rw [bind_of_eq_some h₁]
    obtain ⟨p₂, h₂, hinv₂, hi₂, hle₂⟩ := skipWhitespace_inv hK hg.inv
    have hq : Quiet source K (held + 1) p₁ p₂ := ⟨hinv₂, hi₂.tree, hle₂⟩
    have hw : Within source p₂ value p.position p₂.position :=
      hg.within.mono hq.ext le_rfl hle₂
    have hpending : p₂.pending = p.pending := hq.pending.trans hg.pending
    have hext := hg.ext.trans hq.ext
    dsimp only
    rw [bind_of_eq_some h₂, peek, read_bind]
    by_cases hb₂ : (bytesAt source p₂.position).head? = some 0x7B
    · obtain ⟨more, hmore⟩ := List.head?_eq_some_iff.mp hb₂
      obtain ⟨index, p', h', hg', hlt'⟩ := parseHeader_inv hK hinv₂
        (hc.mono hext.position) h.boundary hext.position hw hmore
      rw [if_pos hb₂]
      exact ⟨index, p', h', hg'.trans hext hpending, by omega⟩
    · rw [if_neg hb₂]
      exact ⟨value, p₂, rfl, ⟨hinv₂, hext, hpending, hw⟩, by omega⟩

theorem operatorOrError_inv (hK : Keeps guard source K) (h : Inv source K held p)
    (hb : bytesAt source p.position = byte :: bytes) (hascii : byte.toNat < 0x80) :
    ∃ index p', operatorOrError guard source p = some (index, p') ∧
      Gives source K held p.position index p p' ∧ p.position < p'.position := by
  unfold operatorOrError
  rw [position, read_bind]
  rcases parseOperator_inv hK h with h₁ | ⟨index, p₁, h₁, hg, hlt⟩
  · rw [bind_of_eq_some h₁]
    exact recover_inv hK h hb hascii _
  · rw [bind_of_eq_some h₁]
    exact ⟨index, p₁, rfl, hg, hlt⟩

theorem valueOrError_inv (hK : Keeps guard source K) (h : Inv source K held p)
    (hc : Consumes source K p.position container) {key : Nat}
    (hkey : Within source p key start p.position) :
    ∃ index p', valueOrError guard source container key p = some (index, p') ∧
      Gives source K held p.position index p p' := by
  unfold valueOrError
  rw [position, read_bind, peek, read_bind]
  split_ifs with hgap
  · -- no value: an error node of no width
    obtain ⟨keyRange, h₁, -, hr⟩ := nodeRange_eq hkey
    obtain ⟨p₁, h₂, hinv, htree, hpos⟩ := error_inv h .missingValue
      ("`" ++ snippet source keyRange.start keyRange.stop ++ "` is missing a value") fun he => by
        obtain ⟨hin, -, hstop⟩ := hr he
        exact inSource_range he.1 (Nat.le_trans keyRange.le hstop) hin.1 h.boundary
    obtain ⟨index, p', h', hg⟩ := leaf_gives hK hinv .error le_rfl h.boundary h.boundary
      (Nat.le_of_eq hpos.symm)
    have hq : Quiet source K held p p₁ := ⟨hinv, htree, Nat.le_of_eq hpos.symm⟩
    exact ⟨index, p', by rw [bind_of_eq_some h₁, bind_of_eq_some h₂, h'], hq.gives hg⟩
  · obtain ⟨index, p', h', hg, -⟩ := parseValue_inv hK h hc (by omega)
    exact ⟨index, p', h', hg⟩

/-- A node of its own around one node, with the same range. -/
theorem wrap_inv (hK : Keeps guard source K) (h : Inv source K (held + 1) p) (kind : CstKind)
    {index stop : Nat} (hw : Within source p index start stop) :
    ∃ range new p₁ p', nodeRange index p = some (range, p) ∧ push index p = some ((), p₁) ∧
      node guard source kind range.start range.stop 1 p₁ = some (new, p') ∧
      Inv source K (held + 1) p' ∧ Ext p p' ∧ p'.pending = p.pending ∧
      Within source p' new range.start range.stop ∧
      (p.tree.Fits source → InSource source range ∧ start ≤ range.start ∧ range.stop ≤ stop) := by
  obtain ⟨range, h₁, hw₁, hr⟩ := nodeRange_eq hw
  obtain ⟨p₁, h₂, hinv, hext, hpending, -⟩ := push_inv h hw.1
  obtain ⟨new, p', h', hinv', hext', hbelow, hw'⟩ := node_inv hK hinv kind hpending fun he => by
    obtain ⟨hin, -, -⟩ := hr (hext.grows.fits he)
    refine ⟨range.le, hin.1, hin.2, fun child hchild => ?_⟩
    rw [List.mem_singleton.mp hchild]
    exact hw₁.ext hext
  exact ⟨range, new, p₁, p', h₁, h₂, h', hinv', hext.trans hext', hbelow, hw', hr⟩

theorem parseProperty_inv (hK : Keeps guard source K) (h : Inv source K (held + 1) p)
    (hc : Consumes source K p.position container) {key : Nat} (hstart : Boundary source start)
    (hle : start ≤ p.position) (hw : Within source p key start p.position)
    (hb : bytesAt source p.position = byte :: bytes) (hascii : byte.toNat < 0x80) :
    ∃ index p', parseProperty guard source container start key p = some (index, p') ∧
      Gives source K held start index p p' ∧ p.position < p'.position := by
  obtain ⟨operator, p₁, h₁, hg₁, hlt₁⟩ := operatorOrError_inv hK h hb hascii
  obtain ⟨p₂, h₂, hinv₂, hi₂, hle₂⟩ := skipWhitespace_inv hK hg₁.inv
  have hq₂ : Quiet source K (held + 2) p₁ p₂ := ⟨hinv₂, hi₂.tree, hle₂⟩
  have hext₂ := hg₁.ext.trans hq₂.ext
  obtain ⟨value, p₃, h₃, hg₃⟩ := valueOrError_inv hK hinv₂ (hc.mono hext₂.position)
    (hw.mono hext₂ le_rfl hext₂.position)
  have hext₃ := hext₂.trans hg₃.ext
  obtain ⟨keyRange, keyNode, p₄, p₅, h₄, h₄', h₅, hinv₅, hext₅, hpending₅, hw₅, hr₅⟩ :=
    wrap_inv hK hg₃.inv .key (hw.ext hext₃)
  obtain ⟨valueRange, valueNode, p₆, p₇, h₆, h₆', h₇, hinv₇, hext₇, hpending₇, hw₇, hr₇⟩ :=
    wrap_inv hK hinv₅ .value (hg₃.within.ext hext₅)
  have hkeyNode := hw₅.ext hext₇
  have hoperator := ((hg₁.within.ext hq₂.ext).ext hg₃.ext).ext (hext₅.trans hext₇)
  obtain ⟨p₈, h₈, hinv₈, hext₈, hpending₈, -⟩ := push_inv hinv₇ hkeyNode.1
  obtain ⟨p₉, h₉, hinv₉, hext₉, hpending₉, -⟩ := push_inv hinv₈ (hoperator.ext hext₈).1
  obtain ⟨p₁₀, h₁₀, hinv₁₀, hext₁₀, hpending₁₀, -⟩ :=
    push_inv hinv₉ ((hw₇.ext hext₈).ext hext₉).1
  have hextPush := (hext₈.trans hext₉).trans hext₁₀
  have hpending : p₁₀.pending = p.pending ++ [keyNode, operator, valueNode] := by
    rw [hpending₁₀, hpending₉, hpending₈, hpending₇, hpending₅, hg₃.pending, hq₂.pending,
      hg₁.pending, List.append_assoc, List.append_assoc]
    rfl
  have hspans : p₁₀.tree.Fits source →
      p₁₀.tree.Spans source [keyNode, operator, valueNode] start valueRange.stop := by
    intro he
    have he₇ := hextPush.grows.fits he
    obtain ⟨-, hl₅, hr₅⟩ := hr₅ ((hext₅.trans hext₇).grows.fits he₇)
    obtain ⟨hin₇, hl₇, hr₇⟩ := hr₇ (hext₇.grows.fits he₇)
    have := valueRange.le
    have := hext₂.position
    refine ⟨by omega, hstart, hin₇.2, fun child hchild => ?_⟩
    rw [List.mem_cons, List.mem_pair] at hchild
    rcases hchild with rfl | rfl | rfl
    · exact hkeyNode.mono hextPush hl₅ (by omega)
    · exact hoperator.mono hextPush hle (by omega)
    · exact hw₇.mono hextPush (by omega) le_rfl
  obtain ⟨index, p', h', hinv, hext, hbelow, hw'⟩ := node_inv hK hinv₁₀ .property hpending hspans
  have hext₇' := (hext₇.trans hextPush).trans hext
  refine ⟨index, p', ?_, ⟨hinv, (hext₃.trans hext₅).trans hext₇', hbelow, ?_⟩, ?_⟩
  · unfold parseProperty
    rw [bind_of_eq_some h₁, bind_of_eq_some h₂, bind_of_eq_some h₃,
      bind_of_eq_some h₄, bind_of_eq_some h₄', bind_of_eq_some h₅,
      bind_of_eq_some h₆, bind_of_eq_some h₆', bind_of_eq_some h₇,
      bind_of_eq_some h₈, bind_of_eq_some h₉, bind_of_eq_some h₁₀]
    exact h'
  · refine hw'.widen fun he => ⟨le_rfl, ?_⟩
    obtain ⟨-, -, hr⟩ := hr₇ (hext₇'.grows.fits he)
    exact Nat.le_trans hr (hext₅.trans hext₇').position
  · exact Nat.lt_of_lt_of_le hlt₁
      (((hq₂.ext.trans hg₃.ext).trans hext₅).trans hext₇').position

/-! ## Containers -/

/-- The round of a container behind its scalar queues one node from `start` on. -/
structure Queues (source : List Char) (K : σ → Prop) (held start : Nat)
    (p p' : Parser σ) : Prop where
  inv : Inv source K held p'
  ext : Ext p p'
  pending : ∃ index, p'.pending = p.pending ++ [index] ∧ Within source p' index start p'.position

theorem Queues.fills (h : Queues source K held p.position p' p'') (hext : Ext p p')
    (hpending : p'.pending = p.pending) : Fills source K held p p'' := by
  obtain ⟨index, hindex, hw⟩ := h.pending
  refine ⟨h.inv, hext.trans h.ext, [index], by rw [hindex, hpending], fun child hchild => ?_⟩
  rw [List.mem_singleton.mp hchild]
  exact hw

/-- Queues the node just emitted. -/
theorem Gives.push {start index : Nat} (h : Gives source K held start index p p') :
    ∃ p'', push index p' = some ((), p'') ∧ Queues source K held start p p'' ∧
      p''.position = p'.position := by
  obtain ⟨p'', h'', hinv, hext, hpending, hpos⟩ := push_inv h.inv h.within.1
  refine ⟨p'', h'', ⟨hinv, h.ext.trans hext, index, ?_, ?_⟩, hpos⟩
  · rw [hpending, h.pending]
  · exact h.within.mono hext le_rfl hext.position

theorem operatorStart_lt
    (h : (some byte = some 0x3D || some byte = some 0x3C || some byte = some 0x3E ||
      some byte = some 0x21 || some byte = some (0x3F : UInt8)) = true) : byte.toNat < 0x80 := by
  simp only [Option.some.injEq, Bool.or_eq_true, decide_eq_true_eq] at h
  rcases h with (((rfl | rfl) | rfl) | rfl) | rfl <;> decide

theorem afterScalar_inv (hK : Keeps guard source K) (h : Inv source K (held + 1) p)
    (hc : Consumes source K p.position container) {scalar : Nat}
    (hstart : Boundary source start) (hle : start ≤ p.position)
    (hw : Within source p scalar start p.position) (alone : ParseM σ Unit)
    (halone : ∀ {p'}, Inv source K (held + 1) p' → Within source p' scalar start p'.position →
      ∃ p'', alone p' = some ((), p'') ∧ Quiet source K (held + 1) p' p'') :
    ∃ p', afterScalar guard source container start scalar alone p = some ((), p') ∧
      Queues source K held start p p' := by
  obtain ⟨p₁, h₁, hinv₁, hi₁, hle₁⟩ := skipWhitespace_inv hK h
  have hq₁ : Quiet source K (held + 1) p p₁ := ⟨hinv₁, hi₁.tree, hle₁⟩
  have hw₁ : Within source p₁ scalar start p₁.position := hw.mono hq₁.ext le_rfl hle₁
  have hc₁ : Consumes source K p₁.position container := hc.mono hle₁
  have hle' : start ≤ p₁.position := Nat.le_trans hle hle₁
  have hqueues : ∀ {p'}, Queues source K held start p₁ p' → Queues source K held start p p' := by
    rintro p' ⟨hinv, hext, index, hindex, hwithin⟩
    exact ⟨hinv, hq₁.ext.trans hext, index, by rw [hindex, hq₁.pending], hwithin⟩
  unfold afterScalar operatorStartsHere
  rw [bind_of_eq_some h₁, bind_of_eq_some (read_bind _ _ _)]
  split_ifs with hop
  · -- an operator
    cases hb : bytesAt source p₁.position with
    | nil =>
      rw [hb] at hop
      cases hop
    | cons byte bytes =>
      rw [hb] at hop
      obtain ⟨index, p₂, h₂, hg, -⟩ := parseProperty_inv hK hinv₁ hc₁ hstart hle' hw₁ hb
        (operatorStart_lt hop)
      obtain ⟨p', h', hp', -⟩ := hg.push
      exact ⟨p', (bind_of_eq_some h₂).trans h', hqueues hp'⟩
  · rw [peek, read_bind]
    split_ifs with hbrace
    · -- a block
      obtain ⟨bytes, hb⟩ := List.head?_eq_some_iff.mp hbrace
      obtain ⟨index, p₂, h₂, hg, -⟩ := parseHeader_inv hK hinv₁ hc₁ hstart hle' hw₁ hb
      obtain ⟨p', h', hp', -⟩ := hg.push
      exact ⟨p', (bind_of_eq_some h₂).trans h', hqueues hp'⟩
    · obtain ⟨p₂, h₂, hq₂⟩ := halone hinv₁ hw₁
      obtain ⟨p', h', hinv', hext', hpending', -⟩ := push_inv hq₂.inv (hw₁.ext hq₂.ext).1
      refine ⟨p', (bind_of_eq_some h₂).trans h',
        hqueues ⟨hinv', hq₂.ext.trans hext', scalar, ?_, ?_⟩⟩
      · rw [hpending', hq₂.pending]
      · exact (hw₁.mono hq₂.ext le_rfl hq₂.le).mono hext' le_rfl hext'.position

theorem unassigned_inv (h : Inv source K held p) (terminator : Option UInt8) {quoted : Nat}
    (hstart : Boundary source start) (hw : Within source p quoted start p.position) :
    ∃ p', unassigned terminator start quoted p = some ((), p') ∧ Quiet source K held p p' := by
  unfold unassigned
  split_ifs with hnone
  · obtain ⟨range, h₁, -, hr⟩ := nodeRange_eq hw
    obtain ⟨p', h', hinv, htree, hpos⟩ := error_inv h .unexpectedToken
      "a top-level script value must be assigned to a key" fun he => by
        obtain ⟨hin, hl, -⟩ := hr he
        exact inSource_range he.1 (Nat.le_trans hl range.le) hstart hin.2
    exact ⟨p', (bind_of_eq_some h₁).trans h', hinv, htree, Nat.le_of_eq hpos.symm⟩
  · exact ⟨p, rfl, h, rfl, le_rfl⟩

/-- The brace or bracket that closes nothing. -/
theorem stray_inv (hK : Keeps guard source K) (h : Inv source K held p)
    (hb : bytesAt source p.position = byte :: bytes)
    (hascii : byte.toNat < 0x80) (message : String) :
    ∃ index p₁ p₂ p', advance 1 p = some ((), p₁) ∧ p₁.position = p.position + 1 ∧
      error .unexpectedToken p.position p₁.position message p₁ = some ((), p₂) ∧
      node guard source .error p.position p₁.position 0 p₂ = some (index, p') ∧
      Gives source K held p.position index p p' ∧ p.position < p'.position := by
  have hbound := boundary_succ h.boundary hb hascii
  have hi := h.ready.idle_move (h.ready.running (lt_of_bytesAt hb)) _ hbound.le
  have hinv₁ := h.idle hi hbound
  have hq₁ : Quiet source K held p { p with position := p.position + 1 } :=
    ⟨hinv₁, rfl, Nat.le_succ _⟩
  obtain ⟨p₂, h₂, hinv₂, htree₂, hpos₂⟩ := error_inv hinv₁ .unexpectedToken message
    fun he => inSource_range he.1 hq₁.le h.boundary hbound
  obtain ⟨index, p', h', hg⟩ := leaf_gives hK hinv₂ .error hq₁.le h.boundary hbound
    (Nat.le_of_eq hpos₂.symm)
  exact ⟨index, _, p₂, p', rfl, rfl, h₂, h',
    hq₁.gives ((Quiet.mk hinv₂ htree₂ (Nat.le_of_eq hpos₂.symm)).gives hg),
    Nat.lt_of_lt_of_le (Nat.lt_of_lt_of_eq (Nat.lt_succ_self _) hpos₂.symm) hg.ext.position⟩

/-- A round of the loop consumes something. -/
theorem parseItem_inv (hK : Keeps guard source K) (h : Inv source K held p)
    (hc : Consumes source K p.position container) (hlt : p.position < byteLen source)
    (terminator : Option UInt8) :
    ∃ p', parseItem guard source container terminator p = some ((), p') ∧
      Fills source K held p p' ∧ p.position < p'.position := by
  obtain ⟨byte, bytes, hb⟩ := bytesAt_of_lt hlt
  have hfinish : ∀ {program : ParseM σ Nat} {index : Nat} {p₁ p₂ : Parser σ},
      program p₁ = some (index, p₂) → Gives source K held p.position index p p₂ →
      p.position < p₂.position → ∃ p', (program >>= push) p₁ = some ((), p') ∧
        Fills source K held p p' ∧ p.position < p'.position := by
    intro program index p₁ p₂ h₁ hg hlt₁
    obtain ⟨p', h', hq, hpos⟩ := hg.push
    exact ⟨p', (bind_of_eq_some h₁).trans h', hq.fills (Ext.refl p) rfl, by omega⟩
  unfold parseItem
  rw [position, read_bind, peek_cons hb]
  by_cases hcomment : byte = 0x23
  · subst hcomment
    obtain ⟨index, p₁, h₁, hg, hlt₁⟩ := parseComment_inv hK h hb
    rw [if_pos rfl]
    exact hfinish h₁ hg hlt₁
  rw [if_neg (by simpa using hcomment)]
  by_cases hstray : some byte = some 0x7D ∨ some byte = some (0x5D : UInt8)
  · have hascii : byte.toNat < 0x80 := by
      rcases hstray with hs | hs <;> cases hs <;> decide
    obtain ⟨index, p₁, p₂, p₃, h₁, hpos₁, h₂, h₃, hg, hlt₃⟩ := stray_inv hK h hb hascii
      (if some byte = some 0x7D then "unexpected `\x7d`" else "unexpected `]`")
    rw [if_pos hstray, bind_of_eq_some h₁, read_bind, bind_of_eq_some h₂]
    exact hfinish h₃ hg hlt₃
  rw [if_neg hstray]
  rcases parseBare_inv hK h with ⟨p₁, h₁, hinv₁, hi₁, hpos₁, hascii⟩ | ⟨first, p₁, h₁, hg, hlt₁⟩
  · -- no bare scalar: the byte decides
    have hq₁ : Quiet source K held p p₁ := ⟨hinv₁, hi₁.tree, Nat.le_of_eq hpos₁.symm⟩
    have hb₁ : bytesAt source p₁.position = byte :: bytes := by rw [hpos₁, hb]
    have hc₁ : Consumes source K p₁.position container := by rw [hpos₁]; exact hc
    rw [bind_of_eq_some h₁]
    dsimp only
    rw [peek_cons hb₁]
    by_cases hbrace : byte = 0x7B
    · subst hbrace
      obtain ⟨index, p₂, h₂, hg, hlt₂⟩ := parseBlock_inv hK hinv₁ hc₁ hb₁
      rw [hpos₁] at hg hlt₂
      rw [if_pos rfl]
      exact hfinish h₂ (hq₁.gives hg) hlt₂
    rw [if_neg (by simpa using hbrace)]
    by_cases hquote : byte = 0x22
    · subst hquote
      obtain ⟨quoted, p₂, h₂, hg, hlt₂⟩ := parseQuoted_inv hK hinv₁ .quotedString hb₁
      rw [hpos₁] at hg hlt₂
      obtain ⟨p', h', hqueues⟩ := afterScalar_inv hK hg.inv (hc.mono (Nat.le_of_lt hlt₂)) h.boundary
        (Nat.le_of_lt hlt₂) hg.within _ fun hinv hw => unassigned_inv hinv terminator h.boundary hw
      rw [if_pos rfl, bind_of_eq_some h₂]
      exact ⟨p', h', hqueues.fills (hq₁.ext.trans hg.ext) (hg.pending.trans hq₁.pending),
        Nat.lt_of_lt_of_le hlt₂ hqueues.ext.position⟩
    rw [if_neg (by simpa using hquote), startsParameterBlock,
      bind_of_eq_some (read_bind _ _ _)]
    by_cases hparameter : (bytesAt source p₁.position).take 2 = [0x5B, 0x5B]
    · obtain ⟨more, hmore⟩ : ∃ more, bytesAt source p₁.position = 0x5B :: 0x5B :: more :=
        ⟨_, by rw [← List.take_append_drop 2 (bytesAt source p₁.position), hparameter]; rfl⟩
      obtain ⟨index, p₂, h₂, hg, hlt₂⟩ := parseParameterBlock_inv hK hinv₁ hc₁ hmore
      rw [hpos₁] at hg hlt₂
      rw [if_pos (by simpa using hparameter)]
      exact hfinish h₂ (hq₁.gives hg) hlt₂
    · obtain ⟨index, p₂, h₂, hg, hlt₂⟩ := recover_inv hK hinv₁ hb₁ (hascii byte bytes hb)
        fun text => "unexpected character `" ++ text ++ "`"
      rw [hpos₁] at h₂ hg hlt₂
      rw [if_neg (by simpa using hparameter)]
      exact hfinish h₂ (hq₁.gives hg) hlt₂
  · obtain ⟨p', h', hqueues⟩ := afterScalar_inv hK hg.inv
      (hc.mono (Nat.le_of_lt hlt₁)) h.boundary (Nat.le_of_lt hlt₁) hg.within (pure ())
      fun hinv _ => ⟨_, rfl, hinv, rfl, le_rfl⟩
    rw [bind_of_eq_some h₁]
    exact ⟨p', h', hqueues.fills hg.ext hg.pending, Nat.lt_of_lt_of_le hlt₁ hqueues.ext.position⟩

theorem Inv.depth (h : Inv source K held p) (depth : Nat) : Inv source K held { p with depth } :=
  { h with ready := { h.ready with } }

theorem checkWork_quiet (hK : Keeps guard source K) (h : Inv source K held p) (force : Bool) :
    ∃ goOn p', checkWork guard source force p = some (goOn, p') ∧ Quiet source K held p p' := by
  obtain ⟨goOn, p', h', hi, hle, hgo, hstop⟩ := checkWork_idle hK h.ready force
  refine ⟨goOn, p', h', h.idle hi ?_, hi.tree, hle⟩
  cases goOn with
  | true => rw [(hgo rfl).1]; exact h.boundary
  | false => rw [hstop rfl]; exact Boundary.end source

theorem parseContainer_inv (hK : Keeps guard source K) {loop : Option UInt8 → ParseM σ Unit}
    (terminator : Option UInt8) (h : Inv source K held p)
    (hloop : ∀ {p₁}, Inv source K held p₁ → p.position ≤ p₁.position →
      ∃ p', loop terminator p₁ = some ((), p') ∧ Fills source K held p₁ p') :
    ∃ p', parseContainer guard source loop terminator p = some ((), p') ∧
      Fills source K held p p' := by
  obtain ⟨goOn, p₁, h₁, hq⟩ := checkWork_quiet hK (h.depth (p.depth + 1)) true
  obtain ⟨p₂, h₂, hf⟩ := hloop hq.inv hq.le
  have hf' := hq.fills.trans hf
  refine ⟨{ p₂ with depth := p₂.depth - 1 }, ?_, hf.inv.depth _, ⟨hf'.ext.grows, hf'.ext.position⟩,
    hf'.pending⟩
  unfold parseContainer
  rw [Run.modify_bind, bind_of_eq_some h₁, bind_of_eq_some h₂]
  rfl

/-- The loop of a container, by induction on its fuel: each round consumes a byte. -/
theorem containerLoop_inv (hK : Keeps guard source K) (fuel : Nat) (terminator : Option UInt8)
    (h : Inv source K held p) (hfuel : byteLen source < p.position + fuel) :
    ∃ p', containerLoop guard source fuel terminator p = some ((), p') ∧
      Fills source K held p p' := by
  induction fuel generalizing terminator held p with
  | zero => have := h.ready.le; omega
  | succ fuel ih =>
    obtain ⟨goOn, p₁, h₁, hq₁⟩ := checkWork_quiet hK h false
    unfold containerLoop
    rw [bind_of_eq_some h₁]
    cases goOn with
    | false => exact ⟨p₁, rfl, hq₁.fills⟩
    | true =>
      obtain ⟨p₂, h₂, hinv₂, hi₂, hle₂⟩ := skipWhitespace_inv hK hq₁.inv
      have hq₂ := hq₁.trans ⟨hinv₂, hi₂.tree, hle₂⟩
      rw [if_pos rfl, bind_of_eq_some h₂, position, read_bind, isSaturated, read_bind]
      split_ifs with hend
      · exact ⟨p₂, rfl, hq₂.fills⟩
      rw [peek, read_bind]
      split_ifs with hterminator
      · exact ⟨p₂, rfl, hq₂.fills⟩
      -- one round, with the same fuel for what is nested in it, then the rest of the loop
      have hle := hq₂.le
      have hnested : Consumes source K p₂.position
          (parseContainer guard source (containerLoop guard source fuel)) :=
        fun terminator _ _ hinv hlt => parseContainer_inv hK terminator hinv fun hinv' hle' =>
          ih terminator hinv' (by omega)
      obtain ⟨p₃, h₃, hf₃, hlt₃⟩ := parseItem_inv hK hinv₂ hnested
        (Nat.lt_of_not_le fun hge => hend (Or.inl hge)) terminator
      obtain ⟨p₄, h₄, hf₄⟩ := ih terminator hf₃.inv (by omega)
      rw [bind_of_eq_some h₃]
      exact ⟨p₄, h₄, (hq₂.fills.trans hf₃).trans hf₄⟩

/-! ## Whole files -/

theorem Inv.new {guardState : σ} (h : K guardState) : Inv source K 0 (Parser.new guardState) where
  ready := ⟨h, Nat.zero_le _, by rintro ⟨⟩⟩
  boundary := Boundary.zero source
  nodes := rfl
  arena := SyntaxTreeBuilder.Arena.empty
  tokens := by rintro - token ⟨⟩
  errors := by rintro - error ⟨⟩

/-- Emitting a node changes nothing but the arena. -/
theorem emit_eq_some {kind : CstKind} {range : TextRange} {count index : Nat}
    (h : emit kind range count p = some (index, p')) :
    p' = { p with nodes := p.nodes + 1, tree := p'.tree } ∧
      p'.tree.tree.kinds = p.tree.tree.kinds ++ [kind] := by
  unfold emit SyntaxTreeBuilder.node at h
  split_ifs at h with hlt
  · cases h
  · cases h
    exact ⟨rfl, rfl⟩

/-- The run over a whole file: the top-level container ends in `p₀`, the last unit of work in `p₁`,
and the document node makes `p'` of it. -/
structure Document (guard : Option (Guard σ)) (source : List Char) (K : σ → Prop) (guardState : σ)
    (p₀ p₁ p' : Parser σ) : Prop where
  container : parseContainer guard source (containerLoop guard source (byteLen source + 1)) none
    (Parser.new guardState) = some ((), p₀)
  check : ∃ goOn, checkWork guard source true p₀ = some (goOn, p₁)
  emit : ∃ index, emit .document (range 0 (byteLen source)) p₁.pending.length p₁ = some (index, p')
  run : parseDocument guard source (Parser.new guardState) = some ((), p')
  inv : Inv source K 1 p'

/-- The parser has a result for every source. -/
theorem exists_document (hK : Keeps guard source K) (guardState : σ) (h : K guardState) :
    ∃ p₀ p₁ p', Document guard source K guardState p₀ p₁ p' := by
  obtain ⟨p₀, h₀, hf⟩ := parseContainer_inv hK none (Inv.new h) fun hinv _ =>
    containerLoop_inv hK (byteLen source + 1) none hinv (by omega)
  obtain ⟨new, hnew, hw⟩ := hf.pending
  obtain ⟨goOn, p₁, h₁, hq⟩ := checkWork_quiet hK hf.inv true
  obtain ⟨index, p', h', hinv, -⟩ := emit_inv hq.inv .document (hq.pending.trans hnew) fun _ =>
    ⟨Nat.zero_le _, Boundary.zero source, Boundary.end source, fun child hc =>
      (hw child hc).mono hq.ext (Nat.zero_le _) hf.inv.boundary.le⟩
  have hlength : p₁.pending.length = new.length := by rw [hq.pending, hnew]; rfl
  refine ⟨p₀, p₁, p', h₀, ⟨goOn, h₁⟩, ⟨index, by rw [hlength]; exact h'⟩, ?_, hinv⟩
  unfold parseDocument node
  rw [childrenMark, read_bind, bind_of_eq_some h₀,
    bind_of_eq_some (childrenSince_eq hnew), bind_of_eq_some (bind_of_eq_some h₁ |>.trans h')]
  rfl

variable {guardState : σ} {p₀ p₁ : Parser σ}

theorem Document.kinds (h : Document guard source K guardState p₀ p₁ p') :
    p'.tree.tree.kinds = p₁.tree.tree.kinds ++ [.document] := by
  obtain ⟨index, hemit⟩ := h.emit
  exact (emit_eq_some hemit).2

theorem Document.finished (h : Document guard source K guardState p₀ p₁ p') :
    Finished .script source p'.tree p'.tokens p'.errors where
  arena := h.inv.arena
  kinds := by rw [h.kinds, List.getLast?_concat]; rfl
  tokens := h.inv.tokens
  errors := h.inv.errors

end

end ParadoxCode.Script
