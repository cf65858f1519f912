import Mathlib.Data.List.Chain
import ParadoxCode.Rules.TypeComplete
import ParadoxCode.Rules.TypeOffsets

/-!
# Canonical spellings of type expressions

Every tree has a spelling without blanks where none are needed. The parser takes it back to the tree
exactly when the tree is lexically valid and keeps the guards of the parser: these are the trees
that it can give at all.
-/

namespace ParadoxCode.Rules.TypeExpr

open Scanning (skip Blank get_bind)

/-! ## Spellings -/

def Segment.spell : Segment → Str
  | .name word => word
  | .param parameter => '$' :: parameter.name

def spellSegments (segments : List Segment) : Str := segments.flatMap fun segment =>
    '.' :: segment.spell

def spellPath : List Segment → Str
  | [] => []
  | first :: others => first.spell ++ spellSegments others

def Argument.spell : Argument → Str
  | .path segments => spellPath segments
  | .stripped segments stripPrefix => spellPath segments ++ ' ' :: "strip_prefix".toList ++
      ' ' :: stripPrefix

def Range.spell (range : Range) : Str :=
  '[' :: range.min.getD [] ++ "..".toList ++ range.max.getD [] ++ [']']

/-- A character of a literal. -/
def escapeChar (c : Char) : Str := if c = '\'' ∨ c = '\x7B' ∨ c = '\\' then ['\\', c] else [c]

def escape (text : Str) : Str := text.flatMap escapeChar

def QuerySelector.spell : QuerySelector → Str
  | .literal constant => '\'' :: escape constant ++ ['\'']
  | .sibling field => "sibling".toList ++ '<' :: field ++ ['>']

def spellValueKinds (kinds : List QueryValueKind) : Str := kinds.flatMap fun kind =>
    '|' :: kind.keyword

def Filter.spellValue : Filter → Str
  | .key selector => selector.spell
  | .scopeAccepts entry => entry
  | .shape accepted => accepted.keyword
  | .valueKindAny kind kinds => '(' :: kind.keyword ++ spellValueKinds kinds ++ [')']
  | .callArgs => "none".toList
  | .capability advertised => advertised

def spellFilters (filters : List Filter) : Str :=
  filters.flatMap fun filter => ',' :: filter.name ++ '=' :: filter.spellValue

/-- The filters that are set in a query. -/
def FieldQuery.filters (query : FieldQuery) : List Filter :=
  (query.selector.map .key).toList ++ (query.scopeAccepts.map .scopeAccepts).toList ++
    (query.shape.map .shape).toList ++
    (match query.valueKindAny with
    | [] => []
    | kind :: kinds => [.valueKindAny kind kinds]) ++
    (if query.callArgsNone then [.callArgs] else []) ++ (query.capability.map .capability).toList

def FieldQuery.spell (query : FieldQuery) : Str :=
  query.projection.keyword ++ '<' :: query.schema ++ spellFilters query.filters ++ ['>']

def spellConstructor (keyword : Str) (argument : Argument) : Str :=
  keyword ++ '<' :: argument.spell ++ ['>']

mutual

def Expr.spell : Expr → Str
  | .mk alternatives => spellAlternatives alternatives

def spellAlternatives : List Primary → Str
  | [] => []
  | first :: others => first.spell ++ spellOthers others

/-- The alternatives behind the first one. -/
def spellOthers : List Primary → Str
  | [] => []
  | primary :: primaries => '|' :: (primary.spell ++ spellOthers primaries)

def Primary.spell : Primary → Str
  | .scalar kind range => kind.keyword ++ (range.map Range.spell).getD []
  | .ref argument => spellConstructor "ref".toList argument
  | .define argument => spellConstructor "def".toList argument
  | .enum argument => spellConstructor "enum".toList argument
  | .scope argument => spellConstructor "scope".toList argument
  | .path none => "path".toList
  | .path (some category) => "path".toList ++ '<' :: category ++ ['>']
  | .literal parts => '\'' :: spellParts parts ++ ['\'']
  | .query fields => fields.spell
  | .param parameter => '$' :: parameter.name

def spellParts : List LiteralPart → Str
  | [] => []
  | .text text :: parts => escape text ++ spellParts parts
  | .hole hole :: parts => '\x7B' :: (hole.spell ++ '\x7D' :: spellParts parts)

end

/-! ## Conditions on trees -/

mutual

/-- The alternatives at every place of the tree, in holes too. -/
def Expr.All (here : List Primary → Prop) : Expr → Prop
  | .mk alternatives => here alternatives ∧ allAlternatives here alternatives

def allAlternatives (here : List Primary → Prop) : List Primary → Prop
  | [] => True
  | primary :: primaries => Primary.All here primary ∧ allAlternatives here primaries

def Primary.All (here : List Primary → Prop) : Primary → Prop
  | .literal parts => allHoles here parts
  | _ => True

def allHoles (here : List Primary → Prop) : List LiteralPart → Prop
  | [] => True
  | .text _ :: parts => allHoles here parts
  | .hole hole :: parts => Expr.All here hole ∧ allHoles here parts

end

/-- Texts are not empty, and no two stand next to each other. -/
def Apart (parts : List LiteralPart) : Prop :=
  (∀ text, .text text ∈ parts → text ≠ []) ∧
    parts.IsChain fun first second => first.constant = none ∨ second.constant = none

section Lexical

variable (valid : Str → Prop)

def Segment.Lexical : Segment → Prop
  | .name word => valid word
  | .param parameter => valid parameter.name

def Argument.Lexical : Argument → Prop
  | .path segments => ∀ segment ∈ segments, segment.Lexical valid
  | .stripped segments stripPrefix => (∀ segment ∈ segments, segment.Lexical valid) ∧
      valid stripPrefix

def QuerySelector.Lexical : QuerySelector → Prop
  | .literal _ => True
  | .sibling name => valid name

structure FieldQuery.Lexical (query : FieldQuery) : Prop where
  schema : valid query.schema
  selector : ∀ selector ∈ query.selector, selector.Lexical valid
  scopeAccepts : ∀ entry ∈ query.scopeAccepts, valid entry
  capability : ∀ advertised ∈ query.capability, valid advertised

/-- Names are valid, bounds are numbers and texts are apart. -/
def Primary.Lexical : Primary → Prop
  | .scalar _ bounds =>
    ∀ range : Range, bounds = some range → ∀ bound ∈ [range.min, range.max], ∀ number ∈ bound,
      IsNumber number
  | .ref argument | .define argument | .enum argument | .scope argument => argument.Lexical valid
  | .path category => ∀ name ∈ category, valid name
  | .literal parts => Apart parts
  | .query fields => fields.Lexical valid
  | .param parameter => valid parameter.name

/-- A tree whose leaves can be spelled. -/
def Expr.Lexical : Expr → Prop := Expr.All fun alternatives => ∀ primary ∈ alternatives,
    primary.Lexical valid

end Lexical

/-- A parameter is the last segment. -/
def ParamLast : List Segment → Prop
  | [] => True
  | segment :: segments => ((∃ param, segment = .param param) → segments = []) ∧ ParamLast segments

/-- An argument is a parameter, or a path from a name that is not reserved. -/
def Argument.Guarded : Argument → Prop
  | .path [.param _] => True
  | .path (.name first :: others) => first ≠ "impl".toList ∧ ParamLast others
  | .stripped (.name first :: others) _ => first ≠ "impl".toList ∧ ParamLast others
  | _ => False

/-- What the parser checks of an alternative. -/
def Primary.Guarded : Primary → Prop
  | .scalar kind bounds => ∀ range : Range, bounds = some range → range.Fits kind
  | .ref argument | .define argument | .enum argument | .scope argument => argument.Guarded
  | .query fields => fields.Fits
  | _ => True

/-- What is checked of the alternatives at each place of a tree. -/
def Here (alternatives : List Primary) : Prop :=
  alternatives ≠ [] ∧ ∀ primary ∈ alternatives, primary.Lexical IsIdent ∧ primary.Guarded

/-- A tree whose leaves can be spelled and that keeps the guards of the parser. -/
def Expr.WellFormed : Expr → Prop := Expr.All Here

/-! ## A spelling spells its tree -/

/-- No name goes on here. -/
def NameEnds (rest : Str) : Prop := ∀ c ∈ rest.head?, isIdentChar c = false

theorem nameEnds_cons {c : Char} (h : isIdentChar c = false)
    (rest : Str) : NameEnds (c :: rest) := by
  rintro _ ⟨⟩
  exact h

theorem name_append {name rest : Str} (h : IsIdent name) (hrest : NameEnds rest) :
    Name name (name ++ rest) rest :=
  ⟨h, Blank.refl _, hrest⟩

theorem mark_cons (c : Char) (rest : Str) : Mark c (c :: rest) rest := Blank.refl _

/-- Whether a text is an identifier. -/
def identifies : Str → Bool
  | [] => false
  | first :: others => isIdentStart first && others.all isIdentChar

theorem isIdent_of_identifies {name : Str} (h : identifies name = true) : IsIdent name := by
  cases name with
  | nil => cases h
  | cons first others =>
    obtain ⟨hfirst, hothers⟩ := Bool.and_eq_true_iff.mp h
    exact ⟨first, others, rfl, hfirst, List.all_eq_true.mp hothers⟩

theorem isIdent_kind (kind : ScalarKind) : IsIdent kind.keyword := by
  cases kind <;> exact isIdent_of_identifies (by decide)

theorem isIdent_projection (projection : QueryProjection) : IsIdent projection.keyword := by
  cases projection <;> exact isIdent_of_identifies (by decide)

theorem isIdent_shape (shape : QueryShape) : IsIdent shape.keyword := by
  cases shape <;> exact isIdent_of_identifies (by decide)

theorem isIdent_valueKind (kind : QueryValueKind) : IsIdent kind.keyword := by
  cases kind <;> exact isIdent_of_identifies (by decide)

theorem isIdent_filter (filter : Filter) : IsIdent filter.name := by
  unfold Filter.name
  cases filter.kind <;> exact isIdent_of_identifies (by decide)

theorem isIdent_stripPrefix : IsIdent "strip_prefix".toList := isIdent_of_identifies (by decide)

theorem token_spaced (token rest : Str) : Token token (' ' :: token ++ rest) rest := by
  refine ⟨[' '], fun c hc => ?_, rfl⟩
  obtain rfl := List.mem_singleton.mp hc
  decide

theorem segmentAt_spell {segment : Segment} {rest : Str} (h : segment.Lexical IsIdent)
    (hrest : NameEnds rest) : SegmentAt segment (segment.spell ++ rest) rest := by
  cases segment with
  | name word => exact name_append h hrest
  | param parameter => exact ⟨_, mark_cons _ _, name_append h hrest⟩

theorem nameEnds_spellSegments (segments : List Segment) {rest : Str} (hrest : NameEnds rest) :
    NameEnds (spellSegments segments ++ rest) := by
  cases segments with
  | nil => exact hrest
  | cons segment segments => exact nameEnds_cons (by decide) _

theorem segmentsAt_spell {segments : List Segment} {rest : Str}
    (h : ∀ segment ∈ segments, segment.Lexical IsIdent)
    (hlast : ParamLast segments) (hrest : NameEnds rest) :
    SegmentsAt segments (spellSegments segments ++ rest) rest := by
  induction segments with
  | nil => rfl
  | cons segment segments ih =>
    have htext : spellSegments (segment :: segments) ++ rest =
        '.' :: (segment.spell ++ (spellSegments segments ++ rest)) := by
      simp [spellSegments]
    rw [htext]
    refine ⟨_, _, mark_cons _ _, ?_,
      ih (fun other hother => h other (List.mem_cons_of_mem _ hother)) hlast.2, hlast.1⟩
    exact segmentAt_spell (h segment List.mem_cons_self) (nameEnds_spellSegments segments hrest)

variable {argument : Argument}

theorem argumentAt_spell {rest : Str} (h : argument.Lexical IsIdent) (hguard : argument.Guarded)
    (hrest : NameEnds rest) : ArgumentAt argument (argument.spell ++ rest) rest := by
  match argument, hguard with
  | .path [.param parameter], _ =>
    have htext : (Argument.path [.param parameter]).spell ++ rest =
      (Segment.param parameter).spell ++ rest :=
      congrArg (· ++ rest) (List.append_nil _)
    rw [htext]
    exact segmentAt_spell (h _ List.mem_cons_self) hrest
  | .path (.name first :: others), ⟨himpl, hlast⟩ =>
    have htext : (Argument.path (.name first :: others)).spell ++ rest =
      first ++ (spellSegments others ++ rest) :=
      List.append_assoc _ _ _
    rw [htext]
    refine ⟨himpl, _, name_append (h _ List.mem_cons_self) (nameEnds_spellSegments others hrest),
      ?_⟩
    exact segmentsAt_spell (fun segment hsegment => h segment (List.mem_cons_of_mem _ hsegment))
      hlast hrest
  | .stripped (.name first :: others) stripPrefix, ⟨himpl, hlast⟩ =>
    have htext : (Argument.stripped (.name first :: others) stripPrefix).spell ++ rest =
        first ++ (spellSegments others ++ (' ' :: "strip_prefix".toList ++ ' ' ::
          (stripPrefix ++ rest))) := by
      simp [Argument.spell, spellPath, Segment.spell]
    rw [htext]
    obtain ⟨hsegments, hstrip⟩ := h
    have hbehind : NameEnds (' ' :: "strip_prefix".toList ++ ' ' :: (stripPrefix ++ rest)) :=
      nameEnds_cons (by decide) _
    have hothers := segmentsAt_spell (fun segment hsegment =>
      hsegments segment (List.mem_cons_of_mem _ hsegment)) hlast hbehind
    have hmarker : Name "strip_prefix".toList (' ' :: "strip_prefix".toList ++ ' ' ::
      (stripPrefix ++ rest))
        (' ' :: (stripPrefix ++ rest)) :=
      ⟨isIdent_stripPrefix, token_spaced _ _, nameEnds_cons (by decide) _⟩
    have hstripped : Name stripPrefix (' ' :: (stripPrefix ++ rest)) rest :=
      ⟨hstrip, token_spaced _ _, hrest⟩
    exact ⟨himpl, _, _, _, name_append (hsegments _ List.mem_cons_self)
      (nameEnds_spellSegments others hbehind), hothers, hmarker, hstripped⟩

theorem boundAt_spell {bound : Option Number} {rest : Str} (h : ∀ number ∈ bound, IsNumber number)
    (hrest : ∀ number, NumberEnds number rest) : BoundAt bound (bound.getD [] ++ rest) rest := by
  cases bound with
  | none => rfl
  | some number => exact ⟨h number rfl, Blank.refl _, hrest number⟩

theorem rangeAt_spell {kind : ScalarKind} {range : Option Range} {rest : Str}
    (h : ∀ bounds : Range, range = some bounds → ∀ bound ∈ [bounds.min, bounds.max],
      ∀ number ∈ bound, IsNumber number)
    (hguard : ∀ bounds : Range, range = some bounds → bounds.Fits kind) :
    RangeAt kind range ((range.map Range.spell).getD [] ++ rest) rest := by
  cases range with
  | none => rfl
  | some range =>
    have htext : ((some range).map Range.spell).getD [] ++ rest =
        '[' :: (range.min.getD [] ++ ("..".toList ++ (range.max.getD [] ++ (']' :: rest)))) := by
      simp [Range.spell]
    rw [htext]
    have hbounds := h range rfl
    refine ⟨hguard range rfl, _, _, _, _, mark_cons _ _,
      boundAt_spell (hbounds _ (by simp)) fun number => ?_,
      Blank.refl _, boundAt_spell (hbounds _ (by simp)) fun number => ?_, mark_cons _ _⟩
    · refine ⟨?_, .inr ?_⟩
      · rintro _ ⟨⟩
        decide
      · rintro _ ⟨⟩ -
        decide
    · refine ⟨?_, .inr ?_⟩
      · rintro _ ⟨⟩
        decide
      · intro c _ hdot
        cases hdot

/-! ## Literals -/

/-- The characters and holes of parts. -/
def piecesOf : List LiteralPart → List Piece
  | [] => []
  | .text text :: parts => text.map .char ++ piecesOf parts
  | .hole hole :: parts => .hole hole :: piecesOf parts

theorem collect_chars (gathered text : Str) (pieces : List Piece) :
    collect gathered (text.map .char ++ pieces) = collect (gathered ++ text) pieces := by
  induction text generalizing gathered with
  | nil => simp
  | cons c text ih =>
    rw [List.map_cons, List.cons_append]
    exact (ih (gathered ++ [c])).trans (by simp)

theorem apart_tail {part : LiteralPart} {parts : List LiteralPart} (h : Apart (part :: parts)) :
    Apart parts :=
  ⟨fun text htext => h.1 text (List.mem_cons_of_mem _ htext), h.2.tail⟩

/-- Parts that are apart are the ones that their pieces make up. -/
theorem collect_piecesOf {parts : List LiteralPart} (h : Apart parts) :
    collect [] (piecesOf parts) = parts := by
  induction parts with
  | nil => rfl
  | cons part parts ih =>
    have hparts := ih (apart_tail h)
    cases part with
    | hole hole => exact congrArg (LiteralPart.hole hole :: ·) hparts
    | text text =>
      have hne : text ≠ [] := h.1 text List.mem_cons_self
      have hflush : flush text = [.text text] := if_neg hne
      change collect [] (text.map .char ++ piecesOf parts) = _
      rw [collect_chars, List.nil_append]
      cases parts with
      | nil => exact hflush
      | cons behind parts =>
        cases behind with
        | text other =>
          obtain ⟨hother | hother, -⟩ := List.isChain_cons_cons.mp h.2
          · cases hother
          · cases hother
        | hole hole =>
          change flush text ++ .hole hole :: collect [] (piecesOf parts) = _
          rw [hflush]
          exact congrArg (LiteralPart.text text :: ·) hparts

variable {expr : Expr → Spelling}

theorem piecesAt_escape {pieces : List Piece} {text left rest : Str}
    (h : PiecesAt expr true pieces left rest) :
    PiecesAt expr true (text.map .char ++ pieces) (escape text ++ left) rest := by
  induction text with
  | nil => exact h
  | cons c text ih =>
    refine ⟨escape text ++ left, ?_, ih⟩
    unfold escape
    rw [List.flatMap_cons, List.append_assoc]
    by_cases hc : c = '\'' ∨ c = '\x7B' ∨ c = '\\'
    · refine .inr ⟨?_, ?_⟩
      · unfold Escapable
        rcases hc with rfl | rfl | rfl <;> decide
      · rw [escapeChar, if_pos hc]
        rfl
    · refine .inl ⟨⟨fun h => hc (.inr (.inr h)), fun h => hc (.inr (.inl h)),
        fun _ h => hc (.inl h)⟩, ?_⟩
      rw [escapeChar, if_neg hc]
      rfl

/-- A text without holes. -/
theorem literalAt_escape (text rest : Str) :
    LiteralAt expr (flush text) ('\'' :: escape text ++ '\'' :: rest) rest := by
  have hquote : PiecesAt expr true [] ('\'' :: rest) ('\'' :: rest) := rfl
  refine ⟨text.map .char ++ [], _, mark_cons _ _, piecesAt_escape hquote, ?_⟩
  rw [collect_chars]
  rfl

theorem mapM_flush (text : Str) : ∃ texts, (flush text).mapM LiteralPart.constant = some texts ∧
    text = texts.flatten := by
  by_cases h : text = []
  · exact ⟨[], by rw [flush, if_pos h]; rfl, h⟩
  · exact ⟨[text], by rw [flush, if_neg h]; rfl, (List.append_nil text).symm⟩

/-! ## Queries -/

section Queries

variable {expr : Expr → Spelling}

theorem selectorAt_spell {selector : QuerySelector} {rest : Str} (h : selector.Lexical IsIdent) :
    SelectorAt (LiteralAt expr) selector (selector.spell ++ rest) rest := by
  cases selector with
  | literal constant =>
    obtain ⟨texts, htexts, hflatten⟩ := mapM_flush constant
    have htext : (QuerySelector.literal constant).spell ++ rest =
      '\'' :: escape constant ++ '\'' :: rest :=
      List.append_assoc _ _ _
    rw [htext]
    exact .inr ⟨flush constant, texts, literalAt_escape constant rest, htexts, hflatten⟩
  | sibling field =>
    have htext : (QuerySelector.sibling field).spell ++ rest =
      "sibling".toList ++ '<' :: (field ++ '>' :: rest) :=
      (List.append_assoc _ _ _).trans (List.append_assoc _ _ _)
    rw [htext]
    exact ⟨_, _, _, name_append (isIdent_of_identifies (by decide)) (nameEnds_cons (by decide) _),
      mark_cons _ _, name_append h (nameEnds_cons (by decide) _), mark_cons _ _⟩

theorem valueKindsAt_spell (kinds : List QueryValueKind) {rest : Str} (hrest : NameEnds rest) :
    ValueKindsAt kinds (spellValueKinds kinds ++ rest) rest ∧
    NameEnds (spellValueKinds kinds ++ rest) := by
  induction kinds with
  | nil => exact ⟨rfl, hrest⟩
  | cons kind kinds ih =>
    have htext : spellValueKinds (kind :: kinds) ++ rest =
      '|' :: (kind.keyword ++ (spellValueKinds kinds ++ rest)) := by
      simp [spellValueKinds]
    rw [htext]
    exact ⟨⟨_, _, mark_cons _ _, name_append (isIdent_valueKind kind) ih.2, ih.1⟩,
      nameEnds_cons (by decide) _⟩

/-- The names in a filter are valid. -/
def Filter.Lexical (valid : Str → Prop) : Filter → Prop
  | .key selector => selector.Lexical valid
  | .scopeAccepts entry => valid entry
  | .capability advertised => valid advertised
  | _ => True

theorem filterValueAt_spell {filter : Filter} {rest : Str} (h : filter.Lexical IsIdent)
    (hrest : NameEnds rest) :
    FilterValueAt (LiteralAt expr) filter (filter.spellValue ++ rest) rest := by
  cases filter with
  | key selector => exact selectorAt_spell h
  | scopeAccepts entry => exact name_append h hrest
  | shape accepted => exact name_append (isIdent_shape accepted) hrest
  | valueKindAny kind kinds =>
    have htext : (Filter.valueKindAny kind kinds).spellValue ++ rest =
        '(' :: (kind.keyword ++ (spellValueKinds kinds ++ ')' :: rest)) := by
      simp [Filter.spellValue]
    rw [htext]
    obtain ⟨hkinds, hends⟩ := valueKindsAt_spell kinds (nameEnds_cons (c := ')') (by decide) rest)
    exact ⟨_, _, _, mark_cons _ _, name_append (isIdent_valueKind kind) hends, hkinds,
      mark_cons _ _⟩
  | callArgs => exact name_append (isIdent_of_identifies (by decide)) hrest
  | capability advertised => exact name_append h hrest

theorem filtersAt_spell {filters : List Filter} {rest : Str}
    (h : ∀ filter ∈ filters, filter.Lexical IsIdent) (hrest : NameEnds rest) :
    FiltersAt (LiteralAt expr) filters (spellFilters filters ++ rest) rest ∧
    NameEnds (spellFilters filters ++ rest) := by
  induction filters with
  | nil => exact ⟨rfl, hrest⟩
  | cons filter filters ih =>
    have htext : spellFilters (filter :: filters) ++ rest =
        ',' :: (filter.name ++ '=' :: (filter.spellValue ++ (spellFilters filters ++ rest))) := by
      simp [spellFilters]
    rw [htext]
    obtain ⟨hfilters, hends⟩ := ih fun other hother => h other (List.mem_cons_of_mem _ hother)
    refine ⟨⟨_, _, _, _, mark_cons _ _, name_append (isIdent_filter filter)
      (nameEnds_cons (by decide) _), mark_cons _ _,
      filterValueAt_spell (h filter List.mem_cons_self) hends, hfilters⟩,
      nameEnds_cons (by decide) _⟩

/-- A query is what its filters make of one without filters. -/
theorem foldl_filters (query : FieldQuery) :
    query.filters.foldl Filter.apply (FieldQuery.start query.projection query.schema) = query := by
  obtain ⟨schema, projection, selector, scopeAccepts, shape, valueKindAny, capability,
    callArgsNone⟩ := query
  cases selector <;> cases scopeAccepts <;> cases shape <;> cases valueKindAny <;>
    cases capability <;>
    cases callArgsNone <;> rfl

theorem sublist_option {α : Type} (field : Option α) (filter : α → Filter) (kind : FilterKind)
    (h : ∀ a, (filter a).kind = kind) : (((field.map filter).toList).map Filter.kind).Sublist
      [kind] := by
  cases field with
  | none => exact List.nil_sublist _
  | some a => simp [h a]

/-- The filters of a query stand in the order of their kinds. -/
theorem sublist_filters (query : FieldQuery) : (query.filters.map Filter.kind).Sublist
    FilterKind.all := by
  unfold FieldQuery.filters
  simp only [List.map_append]
  have hkinds : ((match query.valueKindAny with
      | [] => []
      | kind :: kinds => [Filter.valueKindAny kind kinds]).map Filter.kind).Sublist
          [FilterKind.valueKindAny] := by
    cases query.valueKindAny with
    | nil => exact List.nil_sublist _
    | cons kind kinds => exact List.Sublist.refl _
  have hcall : ((if query.callArgsNone then [Filter.callArgs] else []).map Filter.kind).Sublist
    [FilterKind.callArgs] := by
    split_ifs
    · exact List.Sublist.refl _
    · exact List.nil_sublist _
  have hkey := sublist_option query.selector .key .key fun _ => rfl
  have hscope := sublist_option query.scopeAccepts .scopeAccepts .scopeAccepts fun _ => rfl
  have hshape := sublist_option query.shape .shape .shape fun _ => rfl
  have hcapability := sublist_option query.capability .capability .capability fun _ => rfl
  exact ((((hkey.append hscope).append hshape).append hkinds).append hcall).append hcapability

theorem nodup_filters (query : FieldQuery) : (query.filters.map Filter.name).Nodup := by
  have hall : (FilterKind.all.map FilterKind.keyword).Nodup := by decide +kernel
  have hnames : query.filters.map Filter.name = (query.filters.map Filter.kind).map
    FilterKind.keyword := by
    rw [List.map_map]
    rfl
  rw [hnames]
  exact ((sublist_filters query).map FilterKind.keyword).nodup hall

theorem lexical_filters {valid : Str → Prop} {query : FieldQuery} :
    (∀ filter ∈ query.filters, filter.Lexical valid) ↔
      (∀ selector ∈ query.selector, selector.Lexical valid) ∧
        (∀ entry ∈ query.scopeAccepts, valid entry) ∧
        ∀ advertised ∈ query.capability, valid advertised := by
  obtain ⟨schema, projection, selector, scopeAccepts, shape, valueKindAny, capability,
    callArgsNone⟩ := query
  cases selector <;> cases scopeAccepts <;> cases shape <;> cases valueKindAny <;>
    cases capability <;>
    cases callArgsNone <;> simp [FieldQuery.filters, Filter.Lexical]

theorem queryAt_spell {query : FieldQuery} {rest : Str} (h : query.Lexical IsIdent)
    (hfits : query.Fits) : ∃ named, Name query.projection.keyword (query.spell ++ rest) named ∧
    QueryAt (LiteralAt expr) query named rest := by
  have htext : query.spell ++ rest =
      query.projection.keyword ++ '<' ::
        (query.schema ++ (spellFilters query.filters ++ '>' :: rest)) := by
    simp [FieldQuery.spell]
  rw [htext]
  have hlexical := lexical_filters.mpr ⟨h.selector, h.scopeAccepts, h.capability⟩
  have hclose : NameEnds ('>' :: rest) := nameEnds_cons (by decide) rest
  obtain ⟨hfilters, hends⟩ := @filtersAt_spell expr _ _ hlexical hclose
  exact ⟨_, name_append (isIdent_projection _) (nameEnds_cons (by decide) _), hfits, query.schema,
    query.filters, _, _, _, mark_cons _ _, name_append h.schema hends, hfilters, mark_cons _ _,
    nodup_filters query, (foldl_filters query).symm⟩

end Queries

/-! ## Trees -/

theorem constructorAt_spell {keyword : Str} {rest : Str} (hkeyword : IsIdent keyword)
    (h : argument.Lexical IsIdent) (hguard : argument.Guarded) :
    ConstructorAt keyword argument (spellConstructor keyword argument ++ rest) rest := by
  have htext : spellConstructor keyword argument ++ rest = keyword ++ '<' ::
    (argument.spell ++ '>' :: rest) := by
    simp [spellConstructor]
  rw [htext]
  exact ⟨_, _, _, name_append hkeyword (nameEnds_cons (by decide) _), mark_cons _ _,
    argumentAt_spell h hguard (nameEnds_cons (by decide) _), mark_cons _ _⟩

theorem nameEnds_spellOthers (primaries : List Primary) {rest : Str} (hrest : NameEnds rest) :
    NameEnds (spellOthers primaries ++ rest) := by
  cases primaries with
  | nil => exact hrest
  | cons primary primaries => exact nameEnds_cons (by decide) _

/-- Something holds with literals in one another to any depth that is great enough. -/
def Eventually (p : Nat → Prop) : Prop := ∃ depth, ∀ n, depth ≤ n → p n

variable {p : Nat → Prop}

theorem eventually_of_forall (h : ∀ n, p n) : Eventually p := ⟨0, fun n _ => h n⟩

theorem Eventually.and {q r : Nat → Prop} (hp : Eventually p) (hq : Eventually q)
    (h : ∀ n, p n → q n → r n) : Eventually r := by
  obtain ⟨first, hfirst⟩ := hp
  obtain ⟨second, hsecond⟩ := hq
  refine ⟨max first second, fun n hn => h n (hfirst n ?_) (hsecond n ?_)⟩
  · exact (le_max_left _ _).trans hn
  · exact (le_max_right _ _).trans hn

theorem Eventually.imp {q : Nat → Prop} (hp : Eventually p) (h : ∀ n, p n → q n) :
    Eventually q := by
  obtain ⟨depth, hdepth⟩ := hp
  exact ⟨depth, fun n hn => h n (hdepth n hn)⟩

theorem Eventually.succ {q : Nat → Prop} (hp : Eventually p) (h : ∀ n, p n → q (n + 1)) :
    Eventually q := by
  obtain ⟨depth, hdepth⟩ := hp
  refine ⟨depth + 1, fun n hn => ?_⟩
  obtain ⟨m, rfl⟩ := Nat.exists_eq_add_of_le' (Nat.le_of_add_left_le hn)
  exact h m (hdepth m (by omega))

mutual

/-- The spelling of a well-formed tree spells it. -/
theorem exprAt_spell (expr : Expr) (h : expr.WellFormed) {rest : Str} (hrest : NameEnds rest) :
    Eventually fun n => ExprAt n expr (expr.spell ++ rest) rest := by
  cases expr with
  | mk alternatives =>
    cases alternatives with
    | nil => exact absurd rfl h.1.1
    | cons first others =>
      obtain ⟨⟨-, hhere⟩, hfirst, hothers⟩ := h
      have htext : Expr.spell (.mk (first :: others)) ++ rest =
        first.spell ++ (spellOthers others ++ rest) :=
        List.append_assoc _ _ _
      rw [htext]
      have hp := primaryAt_spell first (hhere first List.mem_cons_self) hfirst
        (nameEnds_spellOthers others hrest)
      have hq := alternativesAt_spell others (fun primary hprimary =>
        hhere primary (List.mem_cons_of_mem _ hprimary)) hothers hrest
      exact (hp.and hq fun n hpn hqn => ⟨_, hpn, hqn⟩).succ fun n hn => hn

theorem alternativesAt_spell (primaries : List Primary)
    (hhere : ∀ primary ∈ primaries, primary.Lexical IsIdent ∧ primary.Guarded)
    (h : allAlternatives Here primaries) {rest : Str} (hrest : NameEnds rest) :
    Eventually fun n => AlternativesAt (LiteralAt (ExprAt n)) primaries
      (spellOthers primaries ++ rest) rest := by
  cases primaries with
  | nil => exact eventually_of_forall fun _ => rfl
  | cons primary primaries =>
    have htext : spellOthers (primary :: primaries) ++ rest =
      '|' :: (primary.spell ++ (spellOthers primaries ++ rest)) :=
      congrArg ('|' :: ·) (List.append_assoc _ _ _)
    rw [htext]
    have hp := primaryAt_spell primary (hhere primary List.mem_cons_self) h.1
      (nameEnds_spellOthers primaries hrest)
    have hq := alternativesAt_spell primaries (fun other hother =>
      hhere other (List.mem_cons_of_mem _ hother)) h.2 hrest
    exact hp.and hq fun n hpn hqn => ⟨_, _, mark_cons _ _, hpn, hqn⟩

theorem primaryAt_spell (primary : Primary) (hhere : primary.Lexical IsIdent ∧ primary.Guarded)
    (h : primary.All Here) {rest : Str} (hrest : NameEnds rest) :
    Eventually fun n => PrimaryAt (LiteralAt (ExprAt n)) primary (primary.spell ++ rest) rest := by
  obtain ⟨hlexical, hguard⟩ := hhere
  cases primary with
  | scalar kind range =>
    have htext : Primary.spell (.scalar kind range) ++ rest =
        kind.keyword ++ ((range.map Range.spell).getD [] ++ rest) := List.append_assoc _ _ _
    rw [htext]
    refine eventually_of_forall fun n => ⟨_, name_append (isIdent_kind kind) ?_,
      rangeAt_spell hlexical hguard⟩
    cases range with
    | none => exact hrest
    | some range => exact nameEnds_cons (by decide) _
  | ref argument =>
    exact eventually_of_forall fun n => constructorAt_spell (isIdent_of_identifies (by decide))
      hlexical hguard
  | define argument =>
    exact eventually_of_forall fun n => constructorAt_spell (isIdent_of_identifies (by decide))
      hlexical hguard
  | enum argument =>
    exact eventually_of_forall fun n => constructorAt_spell (isIdent_of_identifies (by decide))
      hlexical hguard
  | scope argument =>
    exact eventually_of_forall fun n => constructorAt_spell (isIdent_of_identifies (by decide))
      hlexical hguard
  | path category =>
    have hpath : IsIdent "path".toList := isIdent_of_identifies (by decide)
    cases category with
    | none => exact eventually_of_forall fun n => name_append hpath hrest
    | some category =>
      have htext : Primary.spell (.path (some category)) ++ rest =
        "path".toList ++ '<' :: (category ++ '>' :: rest) :=
        (List.append_assoc _ _ _).trans (List.append_assoc _ _ _)
      rw [htext]
      exact eventually_of_forall fun n => ⟨_, _, _, name_append hpath (nameEnds_cons (by decide) _),
        mark_cons _ _, name_append (hlexical category rfl) (nameEnds_cons (by decide) _),
        mark_cons _ _⟩
  | literal parts =>
    have htext : Primary.spell (.literal parts) ++ rest = '\'' ::
      (spellParts parts ++ '\'' :: rest) :=
      List.append_assoc _ _ _
    rw [htext]
    exact (piecesAt_spell parts h ('\'' :: rest)).imp fun n hn =>
      ⟨piecesOf parts, _, mark_cons _ _, hn, (collect_piecesOf hlexical).symm⟩
  | query fields => exact eventually_of_forall fun n => queryAt_spell hlexical hguard
  | param parameter => exact eventually_of_forall fun n =>
      ⟨_, mark_cons _ _, name_append hlexical hrest⟩

theorem piecesAt_spell (parts : List LiteralPart) (h : allHoles Here parts) (rest : Str) :
    Eventually fun n => PiecesAt (ExprAt n) true (piecesOf parts)
      (spellParts parts ++ rest) rest := by
  cases parts with
  | nil => exact eventually_of_forall fun _ => rfl
  | cons part parts =>
    cases part with
    | text text =>
      have htext : spellParts (.text text :: parts) ++ rest =
        escape text ++ (spellParts parts ++ rest) :=
        List.append_assoc _ _ _
      rw [htext]
      exact (piecesAt_spell parts h rest).imp fun n hn => piecesAt_escape hn
    | hole hole =>
      have htext : spellParts (.hole hole :: parts) ++ rest =
          '\x7B' :: (hole.spell ++ '\x7D' :: (spellParts parts ++ rest)) :=
        congrArg ('\x7B' :: ·) (List.append_assoc _ _ _)
      rw [htext]
      have hclose : NameEnds ('\x7D' :: (spellParts parts ++ rest)) := nameEnds_cons (by decide) _
      exact (exprAt_spell hole h.1 hclose).and (piecesAt_spell parts h.2 rest) fun n hpn hqn =>
        ⟨_, _, _, rfl, hpn, mark_cons _ _, hqn⟩

end

/-! ## Whatever is spelled is well-formed -/

theorem lexical_of_segmentAt {segment : Segment} {text rest : Str}
    (h : SegmentAt segment text rest) : segment.Lexical IsIdent := by
  cases segment with
  | name word => exact h.1
  | param parameter =>
    obtain ⟨middle, -, hname⟩ := h
    exact hname.1

theorem lexical_of_segmentsAt {segments : List Segment} {text rest : Str}
    (h : SegmentsAt segments text rest) :
    (∀ segment ∈ segments, segment.Lexical IsIdent) ∧ ParamLast segments := by
  induction segments generalizing text with
  | nil => exact ⟨fun _ hsegment => absurd hsegment List.not_mem_nil, trivial⟩
  | cons segment segments ih =>
    obtain ⟨dot, middle, -, hsegment, hsegments, hlast⟩ := h
    obtain ⟨hlexical, hguard⟩ := ih hsegments
    exact ⟨List.forall_mem_cons.mpr ⟨lexical_of_segmentAt hsegment, hlexical⟩, hlast, hguard⟩

theorem lexical_of_argumentAt {text rest : Str} (h : ArgumentAt argument text rest) :
    argument.Lexical IsIdent ∧ argument.Guarded := by
  match argument, h with
  | .path [.param parameter], h =>
    refine ⟨?_, trivial⟩
    rintro segment hsegment
    obtain rfl := List.mem_singleton.mp hsegment
    exact @lexical_of_segmentAt (.param parameter) _ _ h
  | .path (.name first :: others), ⟨himpl, middle, hname, hothers⟩ =>
    obtain ⟨hlexical, hguard⟩ := lexical_of_segmentsAt hothers
    exact ⟨List.forall_mem_cons.mpr ⟨hname.1, hlexical⟩, himpl, hguard⟩
  | .stripped (.name first :: others) stripPrefix,
      ⟨himpl, middle, marker, last, hname, hothers, hmarker, hstrip⟩ =>
    obtain ⟨hlexical, hguard⟩ := lexical_of_segmentsAt hothers
    exact ⟨⟨List.forall_mem_cons.mpr ⟨hname.1, hlexical⟩, hstrip.1⟩, himpl, hguard⟩

theorem lexical_of_boundAt {bound : Option Number} {text rest : Str} (h : BoundAt bound text rest) :
    ∀ number ∈ bound, IsNumber number := by
  rintro number rfl
  exact h.1

theorem lexical_of_filterValueAt {spelled : List LiteralPart → Spelling} {filter : Filter}
    {text rest : Str} (h : FilterValueAt spelled filter text rest) : filter.Lexical IsIdent := by
  cases filter with
  | key selector =>
    cases selector with
    | literal constant => trivial
    | sibling field =>
      obtain ⟨keyword, opened, closed, -, -, hname, -⟩ := h
      exact hname.1
  | scopeAccepts entry => exact h.1
  | capability advertised => exact h.1
  | shape accepted => trivial
  | valueKindAny kind kinds => trivial
  | callArgs => trivial

theorem lexical_of_filtersAt {spelled : List LiteralPart → Spelling} {filters : List Filter}
    {text rest : Str}
    (h : FiltersAt spelled filters text rest) : ∀ filter ∈ filters, filter.Lexical IsIdent := by
  induction filters generalizing text with
  | nil => exact fun _ hfilter => absurd hfilter List.not_mem_nil
  | cons filter filters ih =>
    obtain ⟨comma, keyword, value, middle, -, -, -, hvalue, hfilters⟩ := h
    exact List.forall_mem_cons.mpr ⟨lexical_of_filterValueAt hvalue, ih hfilters⟩

theorem lexical_apply {valid : Str → Prop} {query : FieldQuery} {filter : Filter}
    (h : query.Lexical valid)
    (hfilter : filter.Lexical valid) : (filter.apply query).Lexical valid := by
  cases filter with
  | key selector => exact ⟨h.schema, fun _ heq => Option.some.inj heq ▸ hfilter,
      h.scopeAccepts, h.capability⟩
  | scopeAccepts entry => exact ⟨h.schema, h.selector, fun _ heq => Option.some.inj heq ▸ hfilter,
      h.capability⟩
  | capability advertised => exact ⟨h.schema, h.selector, h.scopeAccepts,
      fun _ heq => Option.some.inj heq ▸ hfilter⟩
  | shape accepted => exact ⟨h.schema, h.selector, h.scopeAccepts, h.capability⟩
  | valueKindAny kind kinds => exact ⟨h.schema, h.selector, h.scopeAccepts, h.capability⟩
  | callArgs => exact ⟨h.schema, h.selector, h.scopeAccepts, h.capability⟩

theorem lexical_foldl {valid : Str → Prop} {filters : List Filter} {query : FieldQuery}
    (h : query.Lexical valid) (hfilters : ∀ filter ∈ filters, filter.Lexical valid) :
    (filters.foldl Filter.apply query).Lexical valid := by
  induction filters generalizing query with
  | nil => exact h
  | cons filter filters ih =>
    obtain ⟨hfilter, hfilters⟩ := List.forall_mem_cons.mp hfilters
    exact ih (lexical_apply h hfilter) hfilters

theorem lexical_of_queryAt {spelled : List LiteralPart → Spelling} {query : FieldQuery}
    {text rest : Str}
    (h : QueryAt spelled query text rest) : query.Lexical IsIdent ∧ query.Fits := by
  obtain ⟨hfits, schema, filters, opened, named, closed, -, hschema, hfilters, -, -, hquery⟩ := h
  refine ⟨?_, hfits⟩
  rw [hquery]
  have hstart : (FieldQuery.start query.projection schema).Lexical IsIdent :=
    ⟨hschema.1, fun _ heq => (nomatch heq), fun _ heq => (nomatch heq), fun _ heq => (nomatch heq)⟩
  exact lexical_foldl hstart (lexical_of_filtersAt hfilters)

/-- Collected parts are apart, and nothing but a hole follows the characters so far. -/
theorem apart_collect (gathered : Str) (pieces : List Piece) : Apart (collect gathered pieces) := by
  have hflush (text : Str) : ∀ other, .text other ∈ flush text → other ≠ [] := by
    intro other hother
    unfold flush at hother
    split_ifs at hother with hempty
    · cases hother
    · obtain ⟨rfl⟩ := List.mem_singleton.mp hother
      exact hempty
  induction pieces generalizing gathered with
  | nil =>
    refine ⟨hflush gathered, ?_⟩
    change (flush gathered).IsChain _
    unfold flush
    split_ifs
    · exact .nil
    · exact .singleton _
  | cons piece pieces ih =>
    cases piece with
    | char c => exact ih (gathered ++ [c])
    | hole hole =>
      obtain ⟨hne, hchain⟩ := ih []
      have hhole : (LiteralPart.hole hole :: collect [] pieces).IsChain
          fun first second => first.constant = none ∨ second.constant = none :=
        hchain.cons fun _ _ => .inl rfl
      change Apart (flush gathered ++ .hole hole :: collect [] pieces)
      refine ⟨fun text htext => ?_, ?_⟩
      · rcases List.mem_append.mp htext with htext | htext
        · exact hflush gathered text htext
        · rcases List.mem_cons.mp htext with htext | htext
          · cases htext
          · exact hne text htext
      · unfold flush
        split_ifs
        · exact hhole
        · exact hhole.cons fun _ heq => .inr (by obtain rfl := Option.some.inj heq; rfl)

theorem lexical_of_primaryAt {primary : Primary} {text rest : Str}
    (h : PrimaryAt (LiteralAt expr) primary text rest) : primary.Lexical IsIdent ∧
    primary.Guarded := by
  cases primary with
  | scalar kind range =>
    obtain ⟨named, -, hrange⟩ := h
    cases range with
    | none => exact ⟨fun _ heq => (nomatch heq), fun _ heq => (nomatch heq)⟩
    | some range =>
      obtain ⟨hfits, opened, bounded, dotted, closed, -, hmin, -, hmax, -⟩ := hrange
      refine ⟨?_, ?_⟩
      · rintro _ ⟨⟩ bound hbound
        rcases List.mem_cons.mp hbound with rfl | hbound
        · exact lexical_of_boundAt hmin
        · obtain rfl := List.mem_singleton.mp hbound
          exact lexical_of_boundAt hmax
      · rintro _ ⟨⟩
        exact hfits
  | ref argument =>
    obtain ⟨named, opened, closed, -, -, hargument, -⟩ := h
    exact lexical_of_argumentAt hargument
  | define argument =>
    obtain ⟨named, opened, closed, -, -, hargument, -⟩ := h
    exact lexical_of_argumentAt hargument
  | enum argument =>
    obtain ⟨named, opened, closed, -, -, hargument, -⟩ := h
    exact lexical_of_argumentAt hargument
  | scope argument =>
    obtain ⟨named, opened, closed, -, -, hargument, -⟩ := h
    exact lexical_of_argumentAt hargument
  | path category =>
    refine ⟨?_, trivial⟩
    rintro name rfl
    obtain ⟨named, opened, closed, -, -, hcategory, -⟩ := h
    exact hcategory.1
  | literal parts =>
    obtain ⟨pieces, opened, -, -, rfl⟩ := h
    exact ⟨apart_collect [] pieces, trivial⟩
  | query fields =>
    obtain ⟨named, -, hquery⟩ := h
    exact lexical_of_queryAt hquery
  | param parameter =>
    obtain ⟨middle, -, hname⟩ := h
    exact ⟨hname.1, trivial⟩

theorem allHoles_collect {here : List Primary → Prop} {gathered : Str} {pieces : List Piece}
    (h : ∀ hole, .hole hole ∈ pieces → hole.All here) :
    allHoles here (collect gathered pieces) := by
  have hflush (text : Str) (parts : List LiteralPart) (hparts : allHoles here parts) :
      allHoles here (flush text ++ parts) := by
    unfold flush
    split_ifs
    · exact hparts
    · exact hparts
  induction pieces generalizing gathered with
  | nil =>
    have hnil := hflush gathered [] trivial
    rwa [List.append_nil] at hnil
  | cons piece pieces ih =>
    have htail : allHoles here (collect [] pieces) := ih fun hole hhole =>
      h hole (List.mem_cons_of_mem _ hhole)
    cases piece with
    | char c => exact ih fun hole hhole => h hole (List.mem_cons_of_mem _ hhole)
    | hole hole => exact hflush gathered _ ⟨h hole List.mem_cons_self, htail⟩

theorem exprAt_of_piecesAt {quoted : Bool} {pieces : List Piece} {text rest : Str}
    (h : PiecesAt expr quoted pieces text rest) {hole : Expr} (hhole : .hole hole ∈ pieces) :
    ∃ opened closed, expr hole opened closed := by
  induction pieces generalizing text with
  | nil => cases hhole
  | cons piece pieces ih =>
    cases piece with
    | char c =>
      obtain ⟨left, -, hpieces⟩ := h
      exact ih hpieces ((List.mem_cons.mp hhole).resolve_left (by rintro ⟨⟩))
    | hole other =>
      obtain ⟨opened, closed, left, -, hother, -, hpieces⟩ := h
      rcases List.mem_cons.mp hhole with heq | hhole
      · cases heq
        exact ⟨opened, closed, hother⟩
      · exact ih hpieces hhole

theorem all_of_primaryAt (hexpr : ∀ hole text rest, expr hole text rest → hole.WellFormed)
    {primary : Primary} {text rest : Str} (h : PrimaryAt (LiteralAt expr) primary text rest) :
    primary.All Here := by
  cases primary with
  | literal parts =>
    obtain ⟨pieces, opened, -, hpieces, rfl⟩ := h
    refine allHoles_collect fun hole hhole => ?_
    obtain ⟨inside, closed, hspelled⟩ := exprAt_of_piecesAt hpieces hhole
    exact hexpr hole inside closed hspelled
  | scalar kind range => trivial
  | ref argument => trivial
  | define argument => trivial
  | enum argument => trivial
  | scope argument => trivial
  | path category => trivial
  | query fields => trivial
  | param parameter => trivial

theorem wellFormed_of_alternativesAt
    (hexpr : ∀ hole text rest, expr hole text rest → hole.WellFormed) {primaries : List Primary}
    {text rest : Str} (h : AlternativesAt (LiteralAt expr) primaries text rest) :
    (∀ primary ∈ primaries, primary.Lexical IsIdent ∧ primary.Guarded) ∧
    allAlternatives Here primaries := by
  induction primaries generalizing text with
  | nil => exact ⟨fun _ hprimary => absurd hprimary List.not_mem_nil, trivial⟩
  | cons primary primaries ih =>
    obtain ⟨bar, middle, -, hprimary, hprimaries⟩ := h
    obtain ⟨hhere, hall⟩ := ih hprimaries
    exact ⟨List.forall_mem_cons.mpr ⟨lexical_of_primaryAt hprimary, hhere⟩,
      all_of_primaryAt hexpr hprimary, hall⟩

theorem wellFormed_of_exprAt {depth : Nat} {expr : Expr} {text rest : Str}
    (h : ExprAt depth expr text rest) : expr.WellFormed := by
  induction depth generalizing expr text rest with
  | zero => exact h.elim
  | succ depth ih =>
    have hexpr : ∀ hole text rest, ExprAt depth hole text rest → hole.WellFormed :=
      fun hole text rest hhole => ih hhole
    obtain ⟨alternatives⟩ := expr
    cases alternatives with
    | nil => exact h.elim
    | cons first others =>
      obtain ⟨middle, hfirst, hothers⟩ := h
      obtain ⟨hhere, hall⟩ := wellFormed_of_alternativesAt hexpr hothers
      exact ⟨⟨List.cons_ne_nil _ _, List.forall_mem_cons.mpr ⟨lexical_of_primaryAt hfirst, hhere⟩⟩,
        all_of_primaryAt hexpr hfirst, hall⟩

/-! ## The parser and its grammar -/

theorem parse_iff {source : Str} {expr : Expr} : parse source = .ok expr ↔ Spells expr source :=
  ⟨parse_sound, parse_complete⟩

theorem parseTemplate_sound {source : Str} {parts : List LiteralPart}
    (h : parseTemplate source = .ok parts) : SpellsTemplate parts source := by
  unfold parseTemplate at h
  cases hresult : parseLiteralParts (parseExpr source.length) false source with
  | error failure =>
    rw [hresult] at h
    cases h
  | ok result =>
    obtain ⟨found, left⟩ := result
    have hparts : parseParts (parseExpr source.length) false source source.length [] [] source =
      .ok (found, left) :=
      hresult
    obtain rfl := parseParts_left (fun _ => within_parseExpr _) le_rfl hparts
    obtain ⟨pieces, hpieces, hspelled⟩ := parseParts_sound
      (fun _ _ _ hhole => parseExpr_sound hhole) hparts
    rw [hresult] at h
    obtain rfl := Except.ok.inj h
    exact ⟨source.length, pieces, hspelled, hpieces⟩

theorem spells_spell {expr : Expr} (h : expr.WellFormed) : Spells expr expr.spell := by
  have hends : NameEnds [] := by rintro _ ⟨⟩
  obtain ⟨depth, hdepth⟩ := exprAt_spell expr h hends
  have hspelled := hdepth depth le_rfl
  rw [List.append_nil] at hspelled
  exact ⟨depth, [], hspelled, Blank.refl []⟩

/-- The parser gives a tree for its spelling exactly when the tree is well-formed, and what it
accepts is what the grammar spells. A report is made between two characters. -/
theorem parse_exact :
    (∀ expr : Expr, parse expr.spell = .ok expr ↔ expr.WellFormed) ∧
      (∀ source expr, parse source = .ok expr ↔ Spells expr source) ∧
      (∀ source parts, parseTemplate source = .ok parts ↔ SpellsTemplate parts source) ∧
      (∀ source error, parse source = .error error → Boundary source error.offset) ∧
      ∀ source error, parseTemplate source = .error error → Boundary source error.offset := by
  refine ⟨fun expr => ⟨fun h => ?_, fun h => parse_complete (spells_spell h)⟩,
    fun source expr => parse_iff,
    fun source parts => ⟨parseTemplate_sound, parseTemplate_complete⟩,
      fun source error => parse_offset,
    fun source error => parseTemplate_offset⟩
  obtain ⟨depth, rest, hspelled, -⟩ := parse_sound h
  exact wellFormed_of_exprAt hspelled

/-- A range of a `bool` is refused. -/
theorem parse_bool_range :
    ¬ ∀ expr : Expr, expr.Lexical (fun name => IsIdent name ∧ name ≠ "impl".toList) →
    parse expr.spell = .ok expr := by
  intro h
  have hlexical : (Expr.mk [.scalar .bool (some ⟨some ['0'], some ['1']⟩)]).Lexical
      fun name => IsIdent name ∧ name ≠ "impl".toList := by
    refine ⟨fun primary hprimary => ?_, trivial, trivial⟩
    obtain rfl := List.mem_singleton.mp hprimary
    rintro _ ⟨⟩ bound hbound number rfl
    refine .unsigned (.whole number ?_ ?_)
    · rintro rfl
      simp at hbound
    · intro c hc
      have hdigits : number = ['0'] ∨ number = ['1'] := by simpa using hbound
      rcases hdigits with rfl | rfl <;> obtain rfl := List.mem_singleton.mp hc <;> decide
  have hrefused : (parse (Expr.mk [.scalar .bool (some ⟨some ['0'], some ['1']⟩)]).spell).isOk =
    false := by
    decide +kernel
  rw [h _ hlexical] at hrefused
  cases hrefused

end ParadoxCode.Rules.TypeExpr
