import ParadoxCode.Ide.SemanticTokens

/-!
# Where semantic tokens come from

The leaves of a tree that have tokens, and the parts of the arguments of a call that the text of a
template consumes, told apart from the functions that look for them. The stream of a document is
valid exactly when what its calls consume fits into its leaves.
-/

namespace ParadoxCode.Ide.SemanticTokens

open Format (eqIgnoreAsciiCase)
open Hir (HirProperty HirScalar RenderedText SourcePiece bindingRange)
open ParadoxCode.Parser

/-! ## The leaves of a tree -/

/-- The token of a scalar with a text. -/
def scalarToken (snapshot : AnalysisSnapshot) (range : TextRange) (text : Str) (isKey : Bool) :
    SemanticToken :=
  ⟨range, (snapshot.classifyIdentifier text isKey).1, (snapshot.classifyIdentifier text isKey).2⟩

/-- The nodes whose tokens are those of their children. -/
def containers : List CstKind := [.property, .value, .block, .parameterBlock, .document, .error]

section

variable (snapshot : AnalysisSnapshot) (syn : ParsedFile)

/-- A leaf of a tree has a token. A scalar in front of a block is a header, and a scalar among the
children of a condition selects a parameter. -/
inductive TokenOf : CstNode → SemanticToken → Prop
  | comment {range : TextRange} {children : List CstNode} :
      TokenOf (.mk .comment range children) ⟨range, .comment, false⟩
  | operator {range : TextRange} {children : List CstNode} :
      TokenOf (.mk .operator range children) ⟨range, .operator, false⟩
  | key {range : TextRange} {children : List CstNode} {text : Str}
      (htext : syn.text range = some text) :
      TokenOf (.mk .key range children) (scalarToken snapshot range text true)
  | value {kind : CstKind} {range : TextRange} {children : List CstNode} {text : Str}
      (hkind : kind = .bareValue ∨ kind = .quotedString) (htext : syn.text range = some text) :
      TokenOf (.mk kind range children) (scalarToken snapshot range text false)
  | header {range : TextRange} {first : CstNode} {rest : List CstNode}
      (hkind : first.kind = .bareValue) :
      TokenOf (.mk .headerBlock range (first :: rest)) ⟨first.range, .type, false⟩
  | front {range : TextRange} {first : CstNode} {rest : List CstNode} {token : SemanticToken}
      (hkind : first.kind ≠ .bareValue) (htoken : TokenOf first token) :
      TokenOf (.mk .headerBlock range (first :: rest)) token
  | behind {range : TextRange} {first child : CstNode} {rest : List CstNode} {token : SemanticToken}
      (hchild : child ∈ rest) (htoken : TokenOf child token) :
      TokenOf (.mk .headerBlock range (first :: rest)) token
  | selector {range : TextRange} {child : CstNode} {children : List CstNode}
      (hchild : child ∈ children) (hkind : child.kind = .bareValue) :
      TokenOf (.mk .parameterCondition range children) ⟨child.range, .parameter, false⟩
  | guarded {range : TextRange} {child : CstNode} {children : List CstNode} {token : SemanticToken}
      (hchild : child ∈ children) (hkind : child.kind ≠ .bareValue) (htoken : TokenOf child token) :
      TokenOf (.mk .parameterCondition range children) token
  | inner {kind : CstKind} {range : TextRange} {child : CstNode} {children : List CstNode}
      {token : SemanticToken} (hkind : kind ∈ containers) (hchild : child ∈ children)
      (htoken : TokenOf child token) : TokenOf (.mk kind range children) token

variable {snapshot syn} {token : SemanticToken}

theorem mem_collectChildren {nodes : List CstNode} :
    token ∈ collectChildren snapshot syn none nodes ↔
      ∃ child ∈ nodes, token ∈ collectTokens snapshot syn none child := by
  induction nodes with
  | nil => simp [collectChildren]
  | cons child rest ih => rw [collectChildren, List.mem_append, ih, List.exists_mem_cons_iff]

theorem mem_collectHeader {first : CstNode} {rest : List CstNode} :
    token ∈ collectHeader snapshot syn none (first :: rest) ↔
      (first.kind = .bareValue ∧ token = ⟨first.range, .type, false⟩ ∨
        first.kind ≠ .bareValue ∧ token ∈ collectTokens snapshot syn none first) ∨
      ∃ child ∈ rest, token ∈ collectTokens snapshot syn none child := by
  rw [collectHeader, List.mem_append, mem_collectChildren]
  refine or_congr_left ?_
  by_cases hkind : first.kind = .bareValue
  · simp [hkind, pushTokenIfVisible]
  · simp [hkind]

theorem mem_collectCondition {nodes : List CstNode} :
    token ∈ collectCondition snapshot syn none nodes ↔
      ∃ child ∈ nodes, child.kind = .bareValue ∧ token = ⟨child.range, .parameter, false⟩ ∨
        child.kind ≠ .bareValue ∧ token ∈ collectTokens snapshot syn none child := by
  induction nodes with
  | nil => simp [collectCondition]
  | cons child rest ih =>
    rw [collectCondition, List.mem_append, ih, List.exists_mem_cons_iff]
    refine or_congr_left ?_
    by_cases hkind : child.kind = .bareValue
    · simp [hkind, pushTokenIfVisible]
    · simp [hkind]

theorem mem_pushIdentifier {range : TextRange} {isKey : Bool} :
    token ∈ pushIdentifier snapshot syn none range isKey ↔
      ∃ text, syn.text range = some text ∧ token = scalarToken snapshot range text isKey := by
  unfold pushIdentifier
  cases syn.text range with
  | none => simp
  | some text => simp [pushTokenIfVisible, scalarToken]

/-- What is collected is had by a leaf. -/
theorem tokenOf_of_mem : ∀ node : CstNode, token ∈ collectTokens snapshot syn none node →
    TokenOf snapshot syn node token
  | .mk kind range children, h => by
    have hseen : outside none range = false := rfl
    simp only [collectTokens, hseen, Bool.false_eq_true, if_false] at h
    have ih : ∀ child ∈ children, token ∈ collectTokens snapshot syn none child →
        TokenOf snapshot syn child token := fun child hchild => tokenOf_of_mem child
    have hinner (hkind : kind ∈ containers) (h : token ∈ collectChildren snapshot syn
      none children) :
        TokenOf snapshot syn (.mk kind range children) token := by
      obtain ⟨child, hchild, h⟩ := mem_collectChildren.mp h
      exact .inner hkind hchild (ih child hchild h)
    cases kind with
    | comment =>
      rw [List.mem_singleton.mp h]
      exact .comment
    | operator =>
      rw [List.mem_singleton.mp h]
      exact .operator
    | key =>
      obtain ⟨text, htext, rfl⟩ := mem_pushIdentifier.mp h
      exact .key htext
    | bareValue =>
      obtain ⟨text, htext, rfl⟩ := mem_pushIdentifier.mp h
      exact .value (.inl rfl) htext
    | quotedString =>
      obtain ⟨text, htext, rfl⟩ := mem_pushIdentifier.mp h
      exact .value (.inr rfl) htext
    | headerBlock =>
      cases children with
      | nil => exact absurd h List.not_mem_nil
      | cons first rest =>
        rcases mem_collectHeader.mp h with (⟨hkind, rfl⟩ | ⟨hkind, h⟩) | ⟨child, hchild, h⟩
        · exact .header hkind
        · exact .front hkind (ih first List.mem_cons_self h)
        · exact .behind hchild (ih child (List.mem_cons_of_mem first hchild) h)
    | parameterCondition =>
      obtain ⟨child, hchild, ⟨hkind, rfl⟩ | ⟨hkind, h⟩⟩ := mem_collectCondition.mp h
      · exact .selector hchild hkind
      · exact .guarded hchild hkind (ih child hchild h)
    | property | value | block | parameterBlock | document | error => exact hinner (by decide) h
    | bom | localisationDocument | languageHeader | localisationEntry | localisationKey | version
    | localisationString | unquotedValue => exact absurd h List.not_mem_nil
termination_by node => sizeOf node
decreasing_by
  have hsmaller := List.sizeOf_lt_of_mem hchild
  simp only [CstNode.mk.sizeOf_spec]
  omega

theorem mem_collectTokens_iff {node : CstNode} :
    token ∈ collectTokens snapshot syn none node ↔ TokenOf snapshot syn node token := by
  refine ⟨tokenOf_of_mem node, fun h => ?_⟩
  have hseen : ∀ range : TextRange, outside none range = false := fun _ => rfl
  induction h with
  | comment | operator =>
    rw [collectTokens, hseen, if_neg Bool.false_ne_true]
    exact List.mem_singleton_self _
  | key htext =>
    rw [collectTokens, hseen, if_neg Bool.false_ne_true]
    exact mem_pushIdentifier.mpr ⟨_, htext, rfl⟩
  | value hkind htext =>
    rcases hkind with rfl | rfl <;> rw [collectTokens, hseen, if_neg Bool.false_ne_true] <;>
      exact mem_pushIdentifier.mpr ⟨_, htext, rfl⟩
  | header hkind =>
    rw [collectTokens, hseen, if_neg Bool.false_ne_true]
    exact mem_collectHeader.mpr (.inl (.inl ⟨hkind, rfl⟩))
  | front hkind _ ih =>
    rw [collectTokens, hseen, if_neg Bool.false_ne_true]
    exact mem_collectHeader.mpr (.inl (.inr ⟨hkind, ih⟩))
  | behind hchild _ ih =>
    rw [collectTokens, hseen, if_neg Bool.false_ne_true]
    exact mem_collectHeader.mpr (.inr ⟨_, hchild, ih⟩)
  | selector hchild hkind =>
    rw [collectTokens, hseen, if_neg Bool.false_ne_true]
    exact mem_collectCondition.mpr ⟨_, hchild, .inl ⟨hkind, rfl⟩⟩
  | guarded hchild hkind _ ih =>
    rw [collectTokens, hseen, if_neg Bool.false_ne_true]
    exact mem_collectCondition.mpr ⟨_, hchild, .inr ⟨hkind, ih⟩⟩
  | inner hkind hchild _ ih =>
    have hmem := mem_collectChildren.mpr ⟨_, hchild, ih⟩
    simp only [containers, List.mem_cons, List.not_mem_nil, or_false] at hkind
    rcases hkind with rfl | rfl | rfl | rfl | rfl | rfl <;>
      rw [collectTokens, hseen, if_neg Bool.false_ne_true] <;> exact hmem

end

/-! ## The parts of arguments -/

variable {range : TextRange}

theorem textRange_new_eq_some_iff {start stop : Nat} :
    TextRange.new start stop = some range ↔ range.start = start ∧ range.stop = stop := by
  obtain ⟨start', stop', hle⟩ := range
  unfold TextRange.new
  split_ifs with h
  · simp [eq_comm]
  · refine iff_of_false (by simp) ?_
    rintro ⟨rfl, rfl⟩
    exact h hle

/-- How far behind the start of a scalar a part of its value stands: as far as in the value, or
where the quoted text spells the part. -/
inductive PartAt (source : ParsedFile) (scalar : HirScalar) (relative : TextRange) :
    Nat → Nat → Prop
  | plain (hquoted : scalar.quoted = false) : PartAt source scalar relative
      relative.start relative.stop
  | quoted {text decoded : Str} {map : QuotedScriptSourceMap} {start stop : Nat}
      (hquoted : scalar.quoted = true) (htext : source.text scalar.range = some text)
      (hdecode : decodeQuotedScript text = some (decoded, map))
      (hstart : map.decodedOffset relative.start = some start)
      (hstop : map.decodedOffset relative.stop = some stop) :
        PartAt source scalar relative start stop

/-- A part of the value of a parameter stands at a range of the document: in the last argument of
its name that is a scalar. -/
inductive ArgumentAt (source : ParsedFile) (parameter : Str) (relative : TextRange) :
    List HirProperty → TextRange → Prop
  | intro {before after : List HirProperty} {argument : HirProperty} {scalar : HirScalar}
      {start stop : Nat} {mapped : TextRange}
      (hname : eqIgnoreAsciiCase argument.key parameter = true)
        (hscalar : argument.scalar = some scalar)
      (hlast : ∀ later ∈ after, eqIgnoreAsciiCase later.key parameter = true → later.scalar = none)
      (hpart : PartAt source scalar relative start stop)
      (hstart : mapped.start = scalar.range.start + start)
      (hstop : mapped.stop = scalar.range.start + stop) (hfits : mapped.stop ≤ u32Max) :
      ArgumentAt source parameter relative (before ++ argument :: after) mapped

/-- The part of the spelling of a scalar that stands for a part of its value. -/
def spelledPart (source : ParsedFile) (scalar : HirScalar) (relative : TextRange) :
    Option TextRange :=
  if scalar.quoted then
    ((source.text scalar.range).bind decodeQuotedScript).bind fun decoded =>
      decoded.2.decodedRange relative
  else some relative

theorem spelledPart_eq_some_iff {source : ParsedFile} {scalar : HirScalar}
    {relative part : TextRange} :
    spelledPart source scalar relative = some part ↔
      PartAt source scalar relative part.start part.stop := by
  unfold spelledPart
  constructor
  · intro h
    split_ifs at h with hquoted
    · obtain ⟨⟨decoded, map⟩, hdecode, hpart⟩ := Option.bind_eq_some_iff.mp h
      obtain ⟨text, htext, hdecode⟩ := Option.bind_eq_some_iff.mp hdecode
      unfold QuotedScriptSourceMap.decodedRange at hpart
      split at hpart
      · rename_i hstart hstop
        obtain ⟨rfl, rfl⟩ := textRange_new_eq_some_iff.mp hpart
        exact .quoted hquoted htext hdecode hstart hstop
      · cases hpart
    · obtain rfl := Option.some.inj h
      exact .plain (Bool.not_eq_true _ ▸ hquoted)
  · intro h
    generalize hstart : part.start = start at h
    generalize hstop : part.stop = stop at h
    cases h with
    | plain hquoted =>
      obtain ⟨start', stop', hle⟩ := part
      obtain ⟨rfl, rfl⟩ := And.intro hstart hstop
      rw [hquoted, if_neg Bool.false_ne_true]
    | quoted hquoted htext hdecode hfirst hlast =>
      rw [if_pos hquoted, htext, Option.bind_some, hdecode, Option.bind_some]
      unfold QuotedScriptSourceMap.decodedRange
      rw [hfirst, hlast]
      exact textRange_new_eq_some_iff.mpr ⟨hstart, hstop⟩

theorem projectBindingRange_eq (parameter : Str) (relative : TextRange) (source : ParsedFile)
    (arguments : List HirProperty) :
    projectBindingRange parameter relative source arguments =
      (arguments.reverse.find? fun argument =>
        eqIgnoreAsciiCase argument.key parameter && argument.scalar.isSome).bind fun argument =>
          argument.scalar.bind fun scalar => (spelledPart source scalar relative).bind fun part =>
            (tryU32 (scalar.range.start + part.start)).bind fun start =>
              (tryU32 (scalar.range.start + part.stop)).bind fun stop =>
                TextRange.new start stop := by
  unfold projectBindingRange
  refine Option.bind_congr fun argument _ => Option.bind_congr fun scalar _ => ?_
  unfold spelledPart
  split_ifs with hquoted <;> rfl

theorem projectBindingRange_eq_some_iff {parameter : Str} {relative : TextRange}
    {source : ParsedFile} {arguments : List HirProperty} {mapped : TextRange} :
    projectBindingRange parameter relative source arguments = some mapped ↔
      ArgumentAt source parameter relative arguments mapped := by
  rw [projectBindingRange_eq]
  simp only [Option.bind_eq_some_iff, List.find?_eq_some_iff_append, Bool.and_eq_true,
    tryU32_eq_some_iff, textRange_new_eq_some_iff, spelledPart_eq_some_iff]
  constructor
  · rintro ⟨argument, ⟨⟨hname, -⟩, before, after, hsplit, hlast⟩, scalar, hscalar,
      part, hpart, start, ⟨-, rfl⟩, stop, ⟨hfits, rfl⟩, hstart, hstop⟩
    have harguments := congrArg List.reverse hsplit
    rw [List.reverse_reverse, List.reverse_append, List.reverse_cons, List.append_assoc,
      List.singleton_append] at harguments
    rw [harguments]
    refine .intro hname hscalar (fun later hlater hsame => ?_) hpart hstart hstop (hstop ▸ hfits)
    have hnot := hlast later (List.mem_reverse.mp hlater)
    rw [hsame] at hnot
    simpa using hnot
  · rintro ⟨hname, hscalar, hlast, hpart, hstart, hstop, hfits⟩
    rename_i before after argument scalar start stop
    have hle := mapped.le
    refine ⟨argument, ⟨⟨hname, by rw [hscalar]; rfl⟩, after.reverse, before.reverse, by simp, ?_⟩,
      scalar, hscalar, ⟨start, stop, by omega⟩, hpart, _, ⟨?_, rfl⟩, _, ⟨?_, rfl⟩, hstart, hstop⟩
    · intro later hlater
      have hnone := hlast later (List.mem_reverse.mp hlater)
      cases hsame : eqIgnoreAsciiCase later.key parameter with
      | false => rfl
      | true => rw [hnone hsame]; rfl
    · dsimp only
      omega
    · dsimp only
      omega

/-- The range stands in the piece. -/
def Around (piece : SourcePiece) (range : TextRange) : Prop :=
  piece.range.start ≤ range.start ∧ range.stop ≤ piece.range.stop

/-- A range of a rendered text is a part of the value of a parameter: nothing around it is open, and
the first piece around it that comes from a root argument says so. -/
inductive TextPart (rendered : RenderedText) (range : TextRange) : Str → TextRange → Prop
  | intro {before after : List SourcePiece} {piece : SourcePiece} {mapping : Hir.BindingSource}
      {relative : TextRange} (hhole : rendered.hasHole range = false)
      (htext : rendered.hasUncertainText range = false)
      (hstructure : rendered.hasUnresolvedStructure range = false)
      (hpieces : rendered.pieces = before ++ piece :: after) (haround : Around piece range)
      (hmapping : piece.bindingSource = some mapping)
      (hfirst : ∀ earlier ∈ before, Around earlier range → earlier.bindingSource = none)
      (hstart : mapping.offsets[range.start - piece.range.start]? = some relative.start)
      (hstop : mapping.offsets[range.stop - piece.range.start]? = some relative.stop) :
      TextPart rendered range mapping.parameter relative

theorem bindingRange_eq_some_iff {rendered : RenderedText} {relative : TextRange}
    {parameter : Str} :
    bindingRange rendered range = some (parameter, relative) ↔
      TextPart rendered range parameter relative := by
  have hfound : ∀ piece : SourcePiece, (decide (piece.range.start ≤ range.start) &&
      decide (range.stop ≤ piece.range.stop) && piece.bindingSource.isSome) = true ↔
        Around piece range ∧ piece.bindingSource.isSome = true := by
    intro piece
    simp only [Bool.and_eq_true, decide_eq_true_eq]
    rfl
  unfold bindingRange
  constructor
  · intro h
    split_ifs at h with hopen
    simp only [Bool.or_eq_true, not_or, Bool.not_eq_true] at hopen
    obtain ⟨piece, hpiece, h⟩ := Option.bind_eq_some_iff.mp h
    obtain ⟨mapping, hmapping, h⟩ := Option.bind_eq_some_iff.mp h
    obtain ⟨hholds, before, after, hpieces, hbefore⟩ := List.find?_eq_some_iff_append.mp hpiece
    split at h
    · rename_i start stop hstart hstop
      obtain ⟨found, hnew, heq⟩ := Option.map_eq_some_iff.mp h
      obtain ⟨rfl, rfl⟩ := Prod.mk.inj heq
      obtain ⟨rfl, rfl⟩ := textRange_new_eq_some_iff.mp hnew
      refine .intro hopen.1.1 hopen.1.2 hopen.2 hpieces ((hfound piece).mp hholds).1 hmapping
        ?_ hstart hstop
      intro earlier hearlier haround
      have hnot := hbefore earlier hearlier
      rw [Bool.not_eq_true', ← Bool.not_eq_true, hfound, not_and] at hnot
      simpa using hnot haround
    · cases h
  · rintro ⟨hhole, htext, hstructure, hpieces, haround, hmapping, hfirst, hstart, hstop⟩
    rename_i before after piece mapping
    have hfind : (rendered.pieces.find? fun piece => decide (piece.range.start ≤ range.start) &&
        decide (range.stop ≤ piece.range.stop) && piece.bindingSource.isSome) = some piece := by
      refine List.find?_eq_some_iff_append.mpr ⟨(hfound piece).mpr ⟨haround, by rw [hmapping]; rfl⟩,
        before, after, hpieces, fun earlier hearlier => ?_⟩
      rw [Bool.not_eq_true', ← Bool.not_eq_true, hfound, not_and]
      intro haround
      rw [hfirst earlier hearlier haround]
      simp
    rw [hhole, htext, hstructure, if_neg (by simp), hfind, Option.bind_some, hmapping,
      Option.bind_some, hstart, hstop]
    have hnew : TextRange.new relative.start relative.stop = some relative :=
      textRange_new_eq_some_iff.mpr ⟨rfl, rfl⟩
    dsimp only
    rw [hnew]
    rfl

/-! ## What calls consume -/

/-- What a call of a document consumes of its arguments has a token: the name of a call that its
template makes, or a leaf of the text of its template that is consumed as script. -/
inductive Projected (snapshot : AnalysisSnapshot) (source : TokenHir) : SemanticToken → Prop
  | call {invocation : HirProperty} {body : TemplateInstance} {call : Hir.ConsumedCall}
      {parameter : Str} {relative mapped : TextRange}
      (hconsumed : (invocation, body) ∈ consumptions snapshot source)
      (hcall : call ∈ body.rendered.calls) (hsource : call.source = some (parameter, relative))
      (hargument : ArgumentAt source.syn.file parameter relative
        (arguments source invocation) mapped) :
      Projected snapshot source ⟨mapped, .function, false⟩
  | text {invocation : HirProperty} {body : TemplateInstance} {token : SemanticToken}
      {piece : SourcePiece} {parameter : Str} {relative mapped : TextRange}
      (hconsumed : (invocation, body) ∈ consumptions snapshot source)
      (htoken : TokenOf snapshot body.hir.syn.file body.hir.syn.root token)
      (hpiece : piece ∈ body.rendered.pieces)
      (hscript : piece.script = true ∨ ∃ mapping ∈ piece.bindingSource, mapping.script = true)
      (haround : Around piece token.range)
      (hpart : TextPart body.rendered.toRenderedText token.range parameter relative)
      (hargument : ArgumentAt source.syn.file parameter relative
        ((arguments source invocation).filter fun argument =>
          decide (invocation.range.start ≤ argument.range.start) &&
            decide (argument.range.stop ≤ invocation.range.stop)) mapped) :
      Projected snapshot source { retypeNested snapshot body token with range := mapped }

/-- What all calls agree on that consume one range. -/
def Added (snapshot : AnalysisSnapshot) (input : ParsedInput) (token : SemanticToken) : Prop :=
  ∃ source ∈ input.hir, Projected snapshot source token ∧
    ∀ other, Projected snapshot source other → other.range = token.range → other = token

/-- A leaf of the tree of a document, with what its field and the definitions make of it. -/
inductive Stands (snapshot : AnalysisSnapshot) (input : ParsedInput) : SemanticToken → Prop
  | untyped {token : SemanticToken} (hir : ∀ hir ∈ input.hir, hir.usesIr = false)
      (htoken : TokenOf snapshot input.parsed.file input.parsed.root token) :
        Stands snapshot input token
  | typed {token : SemanticToken} {hir : TokenHir} (hhir : input.hir = some hir)
      (huses : hir.usesIr = true)
      (htoken : TokenOf snapshot input.parsed.file input.parsed.root token) :
      Stands snapshot input (retype snapshot hir token)

variable {token : SemanticToken}

theorem callToken_eq_some_iff {source : TokenHir} {invocation : HirProperty}
    {call : Hir.ConsumedCall} :
    callToken none source invocation call = some token ↔ ∃ parameter relative mapped,
      call.source = some (parameter, relative) ∧
        ArgumentAt source.syn.file parameter relative (arguments source invocation) mapped ∧
          token = ⟨mapped, .function, false⟩ := by
  unfold callToken
  simp only [Option.bind_eq_bind, Option.bind_eq_some_iff, projectBindingRange_eq_some_iff]
  constructor
  · rintro ⟨⟨parameter, relative⟩, hsource, mapped, hargument, htoken⟩
    exact ⟨parameter, relative, mapped, hsource, hargument, (Option.some.inj htoken).symm⟩
  · rintro ⟨parameter, relative, mapped, hsource, hargument, rfl⟩
    exact ⟨(parameter, relative), hsource, mapped, hargument, rfl⟩

theorem inScript_iff {body : TemplateInstance} :
    inScript body range = true ↔ ∃ piece ∈ body.rendered.pieces,
      (piece.script = true ∨ ∃ mapping ∈ piece.bindingSource, mapping.script = true) ∧
        Around piece range := by
  have hscript : ∀ piece : SourcePiece, piece.bindingSource.any Hir.BindingSource.script = true ↔
      ∃ mapping ∈ piece.bindingSource, mapping.script = true := by
    intro piece
    cases piece.bindingSource <;> simp
  unfold inScript Around
  simp only [List.any_eq_true, Bool.and_eq_true, Bool.or_eq_true, decide_eq_true_eq,
    hscript, and_assoc]

variable {snapshot : AnalysisSnapshot}

theorem nestedToken_eq_some_iff {source : TokenHir}
    {invocation : HirProperty} {body : TemplateInstance} {shown : SemanticToken} :
    nestedToken snapshot none source invocation body token = some shown ↔
      inScript body token.range = true ∧ ∃ parameter relative mapped,
        TextPart body.rendered.toRenderedText token.range parameter relative ∧
        ArgumentAt source.syn.file parameter relative
          ((arguments source invocation).filter fun argument =>
            decide (invocation.range.start ≤ argument.range.start) &&
              decide (argument.range.stop ≤ invocation.range.stop)) mapped ∧
          shown = { retypeNested snapshot body token with range := mapped } := by
  unfold nestedToken projectSourceRange
  cases hscript : inScript body token.range with
  | false => simp
  | true =>
    simp only [Bool.not_true, Bool.false_eq_true, if_false, true_and, Option.bind_eq_some_iff]
    constructor
    · rintro ⟨mapped, ⟨⟨parameter, relative⟩, hpart, hargument⟩, hshown⟩
      exact ⟨parameter, relative, mapped, bindingRange_eq_some_iff.mp hpart,
        projectBindingRange_eq_some_iff.mp hargument, (Option.some.inj hshown).symm⟩
    · rintro ⟨parameter, relative, mapped, hpart, hargument, rfl⟩
      exact ⟨mapped, ⟨(parameter, relative), bindingRange_eq_some_iff.mpr hpart,
        projectBindingRange_eq_some_iff.mpr hargument⟩, rfl⟩

theorem mem_choices_iff {input : ParsedInput} :
    token ∈ choices snapshot input none ↔ ∃ source ∈ input.hir,
      Projected snapshot source token := by
  unfold choices
  cases input.hir with
  | none => simp
  | some source =>
    simp only [Option.elim_some, Option.mem_def, Option.some.injEq, exists_eq_left',
      List.mem_flatMap]
    constructor
    · rintro ⟨⟨invocation, body⟩, hconsumed, h⟩
      rcases List.mem_append.mp h with h | h
      · obtain ⟨call, hcall, h⟩ := List.mem_filterMap.mp h
        obtain ⟨parameter, relative, mapped, hsource, hargument, rfl⟩ := callToken_eq_some_iff.mp h
        exact .call hconsumed hcall hsource hargument
      · obtain ⟨token, htoken, h⟩ := List.mem_filterMap.mp h
        obtain ⟨hscript, parameter, relative, mapped, hpart, hargument, rfl⟩ :=
          nestedToken_eq_some_iff.mp h
        obtain ⟨piece, hpiece, hscript, haround⟩ := inScript_iff.mp hscript
        exact .text hconsumed (mem_collectTokens_iff.mp htoken) hpiece hscript haround
          hpart hargument
    · rintro (⟨hconsumed, hcall, hsource, hargument⟩ |
        ⟨hconsumed, htoken, hpiece, hscript, haround, hpart, hargument⟩)
      · refine ⟨_, hconsumed, List.mem_append_left _ (List.mem_filterMap.mpr ⟨_, hcall, ?_⟩)⟩
        exact callToken_eq_some_iff.mpr ⟨_, _, _, hsource, hargument, rfl⟩
      · refine ⟨_, hconsumed, List.mem_append_right _ (List.mem_filterMap.mpr
          ⟨_, mem_collectTokens_iff.mpr htoken, ?_⟩)⟩
        exact nestedToken_eq_some_iff.mpr ⟨inScript_iff.mpr ⟨_, hpiece, hscript, haround⟩,
          _, _, _, hpart, hargument, rfl⟩

theorem agreed_eq_some_iff {tokens : List SemanticToken} :
    agreed tokens = some token ↔ token ∈ tokens ∧ ∀ other ∈ tokens, other = token := by
  cases tokens with
  | nil => simp [agreed]
  | cons first rest =>
    rw [agreed]
    split_ifs with hall
    · have hsame : ∀ other ∈ rest, other = first := by simpa using hall
      constructor
      · rintro h
        obtain rfl := Option.some.inj h
        exact ⟨List.mem_cons_self, List.forall_mem_cons.mpr ⟨rfl, hsame⟩⟩
      · rintro ⟨-, h⟩
        exact congrArg some (h first List.mem_cons_self)
    · refine iff_of_false (by simp) ?_
      rintro ⟨-, h⟩
      obtain rfl := h first List.mem_cons_self
      exact hall (by simpa using fun other hother => h other (List.mem_cons_of_mem _ hother))

/-- The additions of a document are what its calls agree on. -/
theorem mem_additions_iff {input : ParsedInput} :
    token ∈ additions snapshot input none ↔ Added snapshot input token := by
  rw [mem_additions, agreed_eq_some_iff]
  simp only [List.mem_filter, decide_eq_true_eq, mem_choices_iff, and_true]
  constructor
  · rintro ⟨⟨source, hsource, htoken⟩, hall⟩
    exact ⟨source, hsource, htoken, fun other hother hrange =>
      hall other ⟨⟨source, hsource, hother⟩, hrange⟩⟩
  · rintro ⟨source, hsource, htoken, hall⟩
    refine ⟨⟨source, hsource, htoken⟩, ?_⟩
    rintro other ⟨⟨source', hsource', hother⟩, hrange⟩
    obtain rfl := Option.some.inj (hsource.symm.trans hsource')
    exact hall other hother hrange

theorem mem_treeTokens_iff {input : ParsedInput} :
    token ∈ treeTokens snapshot input none ↔ Stands snapshot input token := by
  unfold treeTokens
  dsimp only
  cases hhir : input.hir.filter TokenHir.usesIr with
  | none =>
    have hnone : ∀ hir ∈ input.hir, hir.usesIr = false := by simpa using hhir
    dsimp only
    rw [mem_collectTokens_iff]
    refine ⟨.untyped hnone, ?_⟩
    rintro (⟨-, htoken⟩ | ⟨hsome, huses, -⟩)
    · exact htoken
    · rw [hnone _ hsome] at huses
      cases huses
  | some hir =>
    obtain ⟨hsome, huses⟩ := Option.filter_eq_some_iff.mp hhir
    dsimp only
    rw [List.mem_map]
    constructor
    · rintro ⟨leaf, hleaf, rfl⟩
      exact .typed hsome huses (mem_collectTokens_iff.mp hleaf)
    · rintro (⟨hnone, -⟩ | ⟨hother, -, htoken⟩)
      · rw [hnone hir hsome] at huses
        cases huses
      · obtain rfl := Option.some.inj (hsome.symm.trans hother)
        exact ⟨_, mem_collectTokens_iff.mpr htoken, rfl⟩

/-! ## The stream is valid exactly when this fits -/

/-- A range has a byte of the viewport between its ends. -/
def Reaches (viewport : Option TextRange) (range : TextRange) : Prop :=
  ∀ requested ∈ viewport, requested.start < range.stop ∧ range.start < requested.stop

theorem outside_eq_false_iff {viewport : Option TextRange} :
    outside viewport range = false ↔ Reaches viewport range := by
  unfold outside Reaches
  cases viewport with
  | none => simp
  | some requested => simp

/-- What the calls of a document consume fits into its leaves, as far as the viewport is reached:
two tokens of it share no byte, and it shares bytes with a leaf only inside a string, or where it is
the token of the leaf. -/
structure Fit (snapshot : AnalysisSnapshot) (input : ParsedInput)
    (viewport : Option TextRange) : Prop where
  apart : ∀ a b, Added snapshot input a → Added snapshot input b → Reaches viewport a.range →
    Reaches viewport b.range → a ≠ b → Apart a b
  tree : ∀ token a, Stands snapshot input token → Added snapshot input a →
    Reaches viewport token.range → Reaches viewport a.range →
      Apart token a ∨ token.tokenType = .string ∧ Inside a token ∨ token = a

theorem fitsInto_iff (snapshot : AnalysisSnapshot) (document : ScriptDocument)
    (hir : Option TokenHir) (viewport : Option TextRange) :
    FitsInto (treeTokens snapshot ⟨document.parsed, hir⟩ viewport)
        (additions snapshot ⟨document.parsed, hir⟩ viewport) ↔
      Fit snapshot ⟨document.parsed, hir⟩ viewport := by
  have hadded : ∀ a, a ∈ additions snapshot ⟨document.parsed, hir⟩ viewport ↔
      Added snapshot ⟨document.parsed, hir⟩ a ∧ Reaches viewport a.range := by
    intro a
    rw [mem_additions_viewport, mem_additions_iff, outside_eq_false_iff]
  have htree : ∀ token, token ∈ treeTokens snapshot ⟨document.parsed, hir⟩ viewport ↔
      Stands snapshot ⟨document.parsed, hir⟩ token ∧ Reaches viewport token.range := by
    intro token
    rw [(treeTokens_windowed snapshot ⟨document.parsed, hir⟩ document.inOrder viewport).visible,
      List.mem_filter, mem_treeTokens_iff, Bool.not_eq_true', outside_eq_false_iff]
  constructor
  · intro h
    refine ⟨fun a b ha hb hreaches hreaches' => ?_, fun token a htoken ha hreaches hreaches' => ?_⟩
    · exact h.apart a ((hadded a).mpr ⟨ha, hreaches⟩) b ((hadded b).mpr ⟨hb, hreaches'⟩)
    · exact h.tree token ((htree token).mpr ⟨htoken, hreaches⟩) a ((hadded a).mpr ⟨ha, hreaches'⟩)
  · intro h
    refine ⟨fun a ha b hb => ?_, fun token htoken a ha => ?_⟩
    · obtain ⟨ha, hreaches⟩ := (hadded a).mp ha
      obtain ⟨hb, hreaches'⟩ := (hadded b).mp hb
      exact h.apart a b ha hb hreaches hreaches'
    · obtain ⟨htoken, hreaches⟩ := (htree token).mp htoken
      obtain ⟨ha, hreaches'⟩ := (hadded a).mp ha
      exact h.tree token a htoken ha hreaches hreaches'

/-- The tokens of a viewport are a valid stream exactly when what the calls of the document
consume fits into its leaves. -/
theorem semanticTokens_valid_iff (snapshot : AnalysisSnapshot) (document : ScriptDocument)
    (hir : Option TokenHir) (viewport : Option TextRange) :
    ValidStream viewport (semanticTokensInRange snapshot (some ⟨document.parsed, hir⟩) none)
        (semanticTokensInRange snapshot (some ⟨document.parsed, hir⟩) viewport) ↔
      Fit snapshot ⟨document.parsed, hir⟩ viewport := by
  rw [← fitsInto_iff]
  have hwindowed := treeTokens_windowed snapshot ⟨document.parsed, hir⟩ document.inOrder viewport
  have htree : Follow (treeTokens snapshot ⟨document.parsed, hir⟩ viewport) _ _ :=
    hwindowed.visible ▸ hwindowed.follow.filter _
  have hsorted := additions_sorted snapshot ⟨document.parsed, hir⟩ viewport
  constructor
  · intro hvalid
    have hdisjoint := hvalid.disjoint
    rw [document.semanticTokensInRange_eq] at hdisjoint
    exact (pairwise_apart_mergeAdditions htree hsorted).mp hdisjoint
  · intro hfit
    refine ⟨?_, ?_, fun position hrequested kind => document.covers_iff snapshot hir viewport
      hrequested kind⟩
    · rw [document.semanticTokensInRange_eq]
      exact pairwise_start_mergeAdditions htree
    · rw [document.semanticTokensInRange_eq]
      exact (pairwise_apart_mergeAdditions htree hsorted).mpr hfit

end ParadoxCode.Ide.SemanticTokens
