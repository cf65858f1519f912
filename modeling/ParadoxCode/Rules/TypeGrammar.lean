import ParadoxCode.Rules.TypeExpr

/-!
# The grammar of type expressions

What a text spells, as relations between it and what is left of it. Blank characters may stand in
front of every token, and names and numbers are as long as they can be. Literals in the holes of
literals are counted by a depth.

Besides the productions there are conditions on trees: bounds only for `int` and `float`, whole ones
for `int` and in order; a parameter only at the end of a path; queries whose filters fit together.
-/

namespace ParadoxCode.Rules.TypeExpr

open Scanning

/-- What is spelled between a text and what is left of it. -/
abbrev Spelling := Str → Str → Prop

/-! ## Tokens -/

/-- A text behind blank characters. -/
def Token (token : Str) : Spelling := fun text rest => Blank isWhitespace text (token ++ rest)

/-- A single character behind blank characters. -/
def Mark (c : Char) : Spelling := Token [c]

/-- `[A-Za-z_][A-Za-z0-9_]*`. -/
def IsIdent (name : Str) : Prop := ∃ first others, name = first :: others ∧
    isIdentStart first = true ∧
  ∀ c ∈ others, isIdentChar c = true

/-- An identifier as long as it can be. -/
def Name (name : Str) : Spelling := fun text rest =>
  IsIdent name ∧ Token name text rest ∧ ∀ c ∈ rest.head?, isIdentChar c = false

/-- `[0-9]+(\.[0-9]+)?`. -/
inductive IsUnsigned : Number → Prop where
  | whole (digits : Str) (hne : digits ≠ []) (hdigits : ∀ c ∈ digits, c.isDigit = true) :
      IsUnsigned digits
  | fraction (digits decimals : Str) (hne : digits ≠ []) (hdigits : ∀ c ∈ digits, c.isDigit = true)
      (hne' : decimals ≠ []) (hdecimals : ∀ c ∈ decimals, c.isDigit = true) :
      IsUnsigned (digits ++ '.' :: decimals)

/-- `-?[0-9]+(\.[0-9]+)?`. -/
inductive IsNumber : Number → Prop where
  | unsigned {number : Number} (h : IsUnsigned number) : IsNumber number
  | negative {number : Number} (h : IsUnsigned number) : IsNumber ('-' :: number)

/-- Nothing is left that could belong to a number: no digit, and no fraction of a whole number. -/
def NumberEnds (number rest : Str) : Prop :=
  (∀ c ∈ rest.head?, c.isDigit = false) ∧
    ('.' ∈ number ∨ ∀ c ∈ rest[1]?, rest.head? = some '.' → c.isDigit = false)

/-- A number as long as it can be. -/
def NumberToken (number : Number) : Spelling := fun text rest =>
  IsNumber number ∧ Token number text rest ∧ NumberEnds number rest

/-! ## Productions without literals -/

/-- `param`. -/
def ParamAt (param : Param) : Spelling := fun text rest =>
  ∃ middle, Mark '$' text middle ∧ Name param.name middle rest

/-- One segment of a path. -/
def SegmentAt : Segment → Spelling
  | .name name => Name name
  | .param param => ParamAt param

/-- The segments behind the first one; a parameter is the last. -/
def SegmentsAt : List Segment → Spelling
  | [] => Eq
  | segment :: segments => fun text rest =>
    ∃ dot middle, Mark '.' text dot ∧ SegmentAt segment dot middle ∧
      SegmentsAt segments middle rest ∧ ((∃ param, segment = .param param) → segments = [])

/-- `arg`. -/
def ArgumentAt : Argument → Spelling
  | .path [.param param] => ParamAt param
  | .path (.name first :: others) => fun text rest =>
    first ≠ "impl".toList ∧ ∃ middle, Name first text middle ∧ SegmentsAt others middle rest
  | .stripped (.name first :: others) stripPrefix => fun text rest =>
    first ≠ "impl".toList ∧ ∃ middle marker last, Name first text middle ∧
      SegmentsAt others middle marker ∧ Name "strip_prefix".toList marker last ∧
      Name stripPrefix last rest
  | _ => fun _ _ => False

/-- A bound, which may be omitted. -/
def BoundAt : Option Number → Spelling
  | none => Eq
  | some number => NumberToken number

/-- The bounds fit the kind and each other. -/
def Range.Fits (kind : ScalarKind) (range : Range) : Prop :=
  kind.ranged = true ∧
    (kind = .int → ∀ bound ∈ [range.min, range.max], ∀ number ∈ bound,
      (F64.parse number).isIntegral = true) ∧
    ∀ lower ∈ range.min, ∀ upper ∈ range.max, (F64.parse lower).exceeds (F64.parse upper) = false

/-- `range`, which may be omitted. -/
def RangeAt (kind : ScalarKind) : Option Range → Spelling
  | none => Eq
  | some range => fun text rest =>
    range.Fits kind ∧ ∃ opened bounded dotted closed,
      Mark '[' text opened ∧ BoundAt range.min opened bounded ∧ Token "..".toList bounded dotted ∧
        BoundAt range.max dotted closed ∧ Mark ']' closed rest

/-! ## Queries -/

/-- One filter of a query. -/
inductive Filter where
  | key (selector : QuerySelector)
  | scopeAccepts (entry : Str)
  | shape (accepted : QueryShape)
  | valueKindAny (kind : QueryValueKind) (kinds : List QueryValueKind)
  | callArgs
  | capability (advertised : Str)

namespace Filter

def kind : Filter → FilterKind
  | key _ => .key
  | scopeAccepts _ => .scopeAccepts
  | shape _ => .shape
  | valueKindAny _ _ => .valueKindAny
  | callArgs => .callArgs
  | capability _ => .capability

def name (filter : Filter) : Str := filter.kind.keyword

/-- What the filter adds to a query. -/
def apply (query : FieldQuery) : Filter → FieldQuery
  | key selector => { query with selector := some selector }
  | scopeAccepts entry => { query with scopeAccepts := some entry }
  | shape accepted => { query with shape := some accepted }
  | valueKindAny kind kinds => { query with valueKindAny := query.valueKindAny ++ kind :: kinds }
  | callArgs => { query with callArgsNone := true }
  | capability advertised => { query with capability := some advertised }

end Filter

def QueryShape.keyword : QueryShape → Str
  | scalar => "scalar".toList
  | block => "block".toList

def QueryValueKind.keyword : QueryValueKind → Str
  | int => "int".toList
  | float => "float".toList
  | bool => "bool".toList

def QueryProjection.keyword : QueryProjection → Str
  | keys => "keysof".toList
  | values => "valuesof".toList

/-- The value kinds behind the first one. -/
def ValueKindsAt : List QueryValueKind → Spelling
  | [] => Eq
  | kind :: kinds => fun text rest =>
    ∃ bar middle, Mark '|' text bar ∧ Name kind.keyword bar middle ∧ ValueKindsAt kinds middle rest

/-- A query without filters. -/
def FieldQuery.start (projection : QueryProjection) (schema : Str) : FieldQuery :=
  ⟨schema, projection, none, none, none, [], none, false⟩

/-- The filters of a query fit together. -/
structure FieldQuery.Fits (query : FieldQuery) : Prop where
  selected : query.projection = .values → query.selector ≠ none
  scalar : query.projection = .values → query.shape ≠ some .block
  call : query.callArgsNone = true → query.shape = some .scalar

section Literals

variable (literal : List LiteralPart → Spelling)

/-- `selector`. -/
def SelectorAt : QuerySelector → Spelling
  | .literal name => fun text rest =>
    Name name text rest ∨ ∃ parts texts, literal parts text rest ∧
      parts.mapM LiteralPart.constant = some texts ∧ name = texts.flatten
  | .sibling name => fun text rest =>
    ∃ keyword opened closed, Name "sibling".toList text keyword ∧ Mark '<' keyword opened ∧
      Name name opened closed ∧ Mark '>' closed rest

/-- What stands behind the `=` of a filter. -/
def FilterValueAt : Filter → Spelling
  | .key selector => SelectorAt literal selector
  | .scopeAccepts scope => Name scope
  | .shape shape => Name shape.keyword
  | .valueKindAny kind kinds => fun text rest =>
    ∃ opened middle closed, Mark '(' text opened ∧ Name kind.keyword opened middle ∧
      ValueKindsAt kinds middle closed ∧ Mark ')' closed rest
  | .callArgs => Name "none".toList
  | .capability capability => Name capability

/-- The filters of a query. -/
def FiltersAt : List Filter → Spelling
  | [] => Eq
  | filter :: filters => fun text rest =>
    ∃ comma keyword value middle, Mark ',' text comma ∧ Name filter.name comma keyword ∧
      Mark '=' keyword value ∧ FilterValueAt literal filter value middle ∧
      FiltersAt filters middle rest

/-- `query` behind its keyword. -/
def QueryAt (query : FieldQuery) : Spelling := fun text rest =>
  query.Fits ∧ ∃ schema filters opened named closed,
    Mark '<' text opened ∧ Name schema opened named ∧ FiltersAt literal filters named closed ∧
      Mark '>' closed rest ∧ (filters.map Filter.name).Nodup ∧
      query = filters.foldl Filter.apply (FieldQuery.start query.projection schema)

/-! ## Alternatives -/

/-- A constructor with its argument. -/
def ConstructorAt (keyword : Str) (argument : Argument) : Spelling := fun text rest =>
  ∃ named opened closed, Name keyword text named ∧ Mark '<' named opened ∧
    ArgumentAt argument opened closed ∧ Mark '>' closed rest

/-- `alt`. -/
def PrimaryAt : Primary → Spelling
  | .scalar kind range => fun text rest => ∃ named, Name kind.keyword text named ∧
      RangeAt kind range named rest
  | .ref argument => ConstructorAt "ref".toList argument
  | .define argument => ConstructorAt "def".toList argument
  | .enum argument => ConstructorAt "enum".toList argument
  | .scope argument => ConstructorAt "scope".toList argument
  | .path none => Name "path".toList
  | .path (some category) => fun text rest =>
    ∃ named opened closed, Name "path".toList text named ∧ Mark '<' named opened ∧
      Name category opened closed ∧ Mark '>' closed rest
  | .literal parts => literal parts
  | .query query => fun text rest =>
    ∃ named, Name query.projection.keyword text named ∧ QueryAt literal query named rest
  | .param param => ParamAt param

/-- The alternatives behind the first one. -/
def AlternativesAt : List Primary → Spelling
  | [] => Eq
  | primary :: primaries => fun text rest =>
    ∃ bar middle, Mark '|' text bar ∧ PrimaryAt literal primary bar middle ∧
      AlternativesAt primaries middle rest

/-- `expr`. -/
def AlternationAt : Expr → Spelling
  | .mk [] => fun _ _ => False
  | .mk (first :: others) => fun text rest =>
    ∃ middle, PrimaryAt literal first text middle ∧ AlternativesAt literal others middle rest

end Literals

/-! ## Literals -/

/-- A character of a literal, or a hole. -/
inductive Piece where
  | char (c : Char)
  | hole (hole : Expr)

/-- The parts that pieces make up, behind the characters so far. -/
def collect : Str → List Piece → List LiteralPart
  | text, [] => flush text
  | text, .char c :: pieces => collect (text ++ [c]) pieces
  | text, .hole hole :: pieces => flush text ++ .hole hole :: collect [] pieces

/-- The characters that a backslash can stand in front of. -/
def Escapable (c : Char) : Prop := c ∈ ['\'', '\x7B', '\x7D', '\\']

/-- The characters that stand for themselves. -/
def Plain (quoted : Bool) (c : Char) : Prop := c ≠ '\\' ∧ c ≠ '\x7B' ∧ (quoted = true → c ≠ '\'')

/-- The inside of a literal. Blank characters count here. -/
def PiecesAt (expr : Expr → Spelling) (quoted : Bool) : List Piece → Spelling
  | [] => Eq
  | .char c :: pieces => fun text rest =>
    ∃ left, (Plain quoted c ∧ text = c :: left ∨ Escapable c ∧ text = '\\' :: c :: left) ∧
      PiecesAt expr quoted pieces left rest
  | .hole hole :: pieces => fun text rest =>
    ∃ opened closed left, text = '\x7B' :: opened ∧ expr hole opened closed ∧
      Mark '\x7D' closed left ∧ PiecesAt expr quoted pieces left rest

/-- `literal`. -/
def LiteralAt (expr : Expr → Spelling) (parts : List LiteralPart) : Spelling := fun text rest =>
  ∃ pieces opened, Mark '\'' text opened ∧ PiecesAt expr true pieces opened ('\'' :: rest) ∧
    parts = collect [] pieces

/-- An expression with literals in one another to a depth. -/
def ExprAt : Nat → Expr → Spelling
  | 0 => fun _ _ _ => False
  | depth + 1 => AlternationAt (LiteralAt (ExprAt depth))

/-- The text spells the expression; blank characters may follow. -/
def Spells (expr : Expr) (source : Str) : Prop :=
  ∃ depth rest, ExprAt depth expr source rest ∧ Blank isWhitespace rest []

/-- The text spells the parts of a template. -/
def SpellsTemplate (parts : List LiteralPart) (source : Str) : Prop :=
  ∃ depth pieces, PiecesAt (ExprAt depth) false pieces source [] ∧ parts = collect [] pieces

end ParadoxCode.Rules.TypeExpr
