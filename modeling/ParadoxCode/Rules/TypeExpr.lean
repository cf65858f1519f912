import ParadoxCode.Lib.Scanning
import ParadoxCode.Text

/-!
# Type expressions

The trees and the parser of `expr.rs`. A position is the text behind it. Range bounds keep their
decimal tokens, and their values are rounded as an `f64` is where the parser compares them.

The loops count what is left down, and literals the literals in their holes: no loop goes round more
often than there are characters, and a literal in a hole is shorter than the one around it. Messages
are kept with what they spell out.
-/

namespace ParadoxCode.Rules.TypeExpr

open Scanning (Failure failAt fail peek bump)

/-! ## Trees -/

/-- The scalar spellings of the grammar. -/
inductive ScalarKind where
  | scalar
  | int
  | float
  | bool
  | date
  | loc
  | link
  | opaqueText
  deriving DecidableEq

/-- A range bound by its decimal token. -/
abbrev Number := Str

/-- An inclusive numeric range; either bound may be omitted. -/
structure Range where
  min : Option Number
  max : Option Number
  deriving DecidableEq

/-- A formal parameter. -/
structure Param where
  name : Str
  deriving DecidableEq

/-- One segment of a dotted path. -/
inductive Segment where
  | name (name : Str)
  | param (param : Param)
  deriving DecidableEq

/-- The argument of a constructor. -/
inductive Argument where
  | path (segments : List Segment)
  | stripped (segments : List Segment) (stripPrefix : Str)
  deriving DecidableEq

inductive QueryProjection where
  | keys
  | values
  deriving DecidableEq

/-- A fixed field name or the value of an enclosing sibling field. -/
inductive QuerySelector where
  | literal (name : Str)
  | sibling (name : Str)
  deriving DecidableEq

inductive QueryShape where
  | scalar
  | block
  deriving DecidableEq

inductive QueryValueKind where
  | int
  | float
  | bool
  deriving DecidableEq

/-- A projection of the declared fields of one schema. -/
structure FieldQuery where
  schema : Str
  projection : QueryProjection
  selector : Option QuerySelector
  scopeAccepts : Option Str
  shape : Option QueryShape
  valueKindAny : List QueryValueKind
  capability : Option Str
  callArgsNone : Bool
  deriving DecidableEq

mutual

/-- The alternatives of an expression. -/
inductive Expr where
  | mk (alternatives : List Primary)

/-- One alternative. -/
inductive Primary where
  | scalar (kind : ScalarKind) (range : Option Range)
  | ref (argument : Argument)
  | define (argument : Argument)
  | enum (argument : Argument)
  | scope (argument : Argument)
  | path (category : Option Str)
  | literal (parts : List LiteralPart)
  | query (query : FieldQuery)
  | param (param : Param)

/-- One piece of a literal. -/
inductive LiteralPart where
  | text (text : Str)
  | hole (hole : Expr)

end

namespace ScalarKind

def keyword : ScalarKind → Str
  | scalar => "scalar".toList
  | int => "int".toList
  | float => "float".toList
  | bool => "bool".toList
  | date => "date".toList
  | loc => "loc".toList
  | link => "link".toList
  | opaqueText => "opaque".toList

def all : List ScalarKind := [scalar, int, float, bool, date, loc, link, opaqueText]

/-- `from_keyword`. -/
def fromKeyword (keyword : Str) : Option ScalarKind := all.find? fun kind => kind.keyword = keyword

/-- Whether bounds are allowed. -/
def ranged (kind : ScalarKind) : Bool := kind == int || kind == float

end ScalarKind

/-! ## Numbers -/

/-- An `f64` that a decimal token can stand for. -/
inductive F64 where
  | finite (value : ℚ)
  | infinite (negative : Bool)
  deriving DecidableEq

namespace F64

/-- The nearest whole number, and the even one of two. -/
def roundHalfEven (x : ℚ) : Int :=
  let below := x.floor
  let rest := x - below
  if rest < 1 / 2 then below else if 1 / 2 < rest then below + 1 else if below % 2 = 0 then
    below else below + 1

/-- The exponent of the greatest power of two that is not above a positive number. -/
def exponent (x : ℚ) : Int :=
  let guess : Int := (Nat.log2 x.num.natAbs : Int) - Nat.log2 x.den
  if (2 : ℚ) ^ guess ≤ x then guess else guess - 1

/-- The nearest `f64` of a number that is not negative. -/
def round (x : ℚ) : ℚ :=
  if x = 0 then 0
  else
    let unit : ℚ := 2 ^ max (exponent x - 52) (-1074)
    roundHalfEven (x / unit) * unit

/-- The value of digits to base ten. -/
def digits (text : Str) : Nat := text.foldl (fun value c => value * 10 + (c.toNat - '0'.toNat)) 0

/-- `parse::<f64>` of a decimal token. -/
def parse (token : Number) : F64 :=
  let negative := token.head? = some '-'
  let unsigned := if negative then token.tail else token
  let whole := unsigned.takeWhile (· ≠ '.')
  let fraction := (unsigned.dropWhile (· ≠ '.')).tail
  let value := round (digits (whole ++ fraction) / (10 : ℚ) ^ fraction.length)
  if (2 : ℚ) ^ 1024 ≤ value then .infinite negative else
    .finite (if negative then -value else value)

/-- `is_integral`: the fractional part is zero; that of an infinity is not a number. -/
def isIntegral : F64 → Bool
  | finite value => value.den == 1
  | infinite _ => false

/-- `lower > upper`. -/
def exceeds : F64 → F64 → Bool
  | finite lower, finite upper => decide (upper < lower)
  | infinite false, finite _ | infinite false, infinite true | finite _, infinite true => true
  | _, _ => false

end F64

/-! ## Parser -/

/-- What a message spells out. -/
inductive Message where
  | trailingInput (found : Char)
  | trailingTemplate
  | expected (expected : Char) (found : Option Char)
  | identifier (found : Option Char)
  | typeExpression (found : Option Char)
  | quotedRemoved
  | unknownTypeExpression (keyword : Str)
  | duplicateFilter (filter : Str)
  | unknownShape (shape : Str)
  | unknownValueKind (kind : Str)
  | callArgsOnlyNone
  | unknownFilter (filter : Str)
  | valuesRequireKey
  | valuesOfBlock
  | callArgsRequireScalar
  | constantSelector
  | rangeNotAllowed
  | wholeBounds
  | rangeExceeds (lower upper : F64)
  | dots
  | digitsAfterMinus
  | traitReferences
  | stripPrefix (marker : Str)
  | dollar
  | parameterAttributes
  | unterminatedLiteral
  | unterminatedEscape
  | invalidEscape (escaped : Char)

abbrev Parser := Scanning.Parser Message

def isIdentStart (c : Char) : Bool := c.isAlpha || c == '_'

def isIdentChar (c : Char) : Bool := c.isAlphanum || c == '_'

def skipWhitespace : Parser Unit := Scanning.skipSpace isWhitespace

/-- `expect`. -/
def expect (expected : Char) : Parser Unit := do
  skipWhitespace
  match ← peek with
  | some found => if found = expected then bump else fail (.expected expected (some found))
  | none => fail (.expected expected none)

/-- The characters in front that satisfy a test. -/
def takeChars (test : Char → Bool) : Parser Str := fun text =>
    .ok (text.takeWhile test, text.dropWhile test)

/-- `read_ident`. -/
def readIdent : Parser Str := do
  skipWhitespace
  match ← peek with
  | some first =>
    if isIdentStart first then do
      bump
      let rest ← takeChars isIdentChar
      pure (first :: rest)
    else fail (.identifier (some first))
  | none => fail (.identifier none)

/-- `parse_param`. -/
def parseParam : Parser Param := do
  skipWhitespace
  if (← peek) ≠ some '$' then fail .dollar
  else
    bump
    let name ← readIdent
    skipWhitespace
    if (← peek) = some '.' then fail .parameterAttributes else pure ⟨name⟩

/-- `parse_segment`. -/
def parseSegment : Parser Segment := do
  skipWhitespace
  if (← peek) = some '$' then .param <$> parseParam else .name <$> readIdent

/-- The loop over the segments behind the first one. -/
def parseSegments : Nat → Parser (List Segment)
  | 0 => pure []
  | left + 1 => do
    skipWhitespace
    if (← peek) ≠ some '.' then pure []
    else
      bump
      let segment ← parseSegment
      let segments ← parseSegments left
      pure (segment :: segments)

/-- `parse_argument`. -/
def parseArgument : Parser Argument := do
  skipWhitespace
  if (← peek) = some '$' then
    let param ← parseParam
    pure (.path [.param param])
  else
    let first ← readIdent
    if first = "impl".toList then fail .traitReferences
    else
      let others ← parseSegments (← get).length
      let segments := .name first :: others
      skipWhitespace
      if (← peek).any isIdentStart then
        let marker ← readIdent
        if marker = "strip_prefix".toList then
          let stripPrefix ← readIdent
          pure (.stripped segments stripPrefix)
        else fail (.stripPrefix marker)
      else pure (.path segments)

/-- The digits of a number behind its sign. A dot only starts a fraction when a digit follows. -/
def takeNumber : Parser Number := fun text =>
  match text.dropWhile Char.isDigit with
  | '.' :: next :: rest =>
    if next.isDigit then
      .ok (text.takeWhile Char.isDigit ++ '.' :: (next :: rest).takeWhile Char.isDigit,
        (next :: rest).dropWhile Char.isDigit)
    else .ok (text.takeWhile Char.isDigit, '.' :: next :: rest)
  | other => .ok (text.takeWhile Char.isDigit, other)

/-- `parse_number`: a bound with the place where it starts. -/
def parseNumber : Parser (Option (Number × Str)) := do
  skipWhitespace
  let start ← get
  if (← peek) = some '-' then
    bump
    if (← peek).any Char.isDigit then
      let number ← takeNumber
      pure (some ('-' :: number, start))
    else fail .digitsAfterMinus
  else if (← peek).any Char.isDigit then
    let number ← takeNumber
    pure (some (number, start))
  else pure none

/-- `expect_dots`. -/
def expectDots : Parser Unit := fun text =>
  match Scanning.skip isWhitespace text with
  | '.' :: '.' :: rest => .ok ((), rest)
  | other => .error ⟨other, .dots⟩

/-- The bound is not a whole number where it has to be. -/
def brokenBound (kind : ScalarKind) (bound : Option (Number × Str)) : Bool :=
  kind == .int && bound.any fun bound => !(F64.parse bound.1).isIntegral

/-- Where the first bound is that is not a whole number but has to be. -/
def brokenAt (kind : ScalarKind) (min max : Option (Number × Str)) : Option Str :=
  ([min, max].find? (brokenBound kind)).bind fun bound => bound.map Prod.snd

/-- The bounds, where the lower one exceeds the upper one. -/
def exceeding (min max : Option (Number × Str)) : Option (F64 × F64) := do
  let (lower, _) ← min
  let (upper, _) ← max
  if (F64.parse lower).exceeds (F64.parse upper) then some (F64.parse lower, F64.parse upper) else
    none

/-- `parse_range`. -/
def parseRange (kind : ScalarKind) : Parser (Option Range) := do
  skipWhitespace
  if (← peek) ≠ some '[' then pure none
  else if !kind.ranged then fail .rangeNotAllowed
  else
    let rangeOffset ← get
    bump
    let min ← parseNumber
    expectDots
    let max ← parseNumber
    expect ']'
    match brokenAt kind min max with
    | some offset => failAt offset .wholeBounds
    | none =>
      match exceeding min max with
      | some (lower, upper) => failAt rangeOffset (.rangeExceeds lower upper)
      | none => pure (some ⟨min.map Prod.fst, max.map Prod.fst⟩)

section Literals

variable (expr : Parser Expr)

/-- The text that has been gathered, as a part of its own. -/
def flush (text : Str) : List LiteralPart := if text = [] then [] else [.text text]

/-- The loop of `parse_literal_parts`, with the parts and the text so far. -/
def parseParts (quoted : Bool) (opening : Str) : Nat → List LiteralPart → Str →
    Parser (List LiteralPart)
  | 0, parts, text => if quoted then failAt opening .unterminatedLiteral else
      pure (parts ++ flush text)
  | left + 1, parts, text => do
    let start ← get
    match ← peek with
    | none => if quoted then failAt opening .unterminatedLiteral else pure (parts ++ flush text)
    | some next =>
      if next = '\'' ∧ quoted then
        bump
        pure (parts ++ flush text)
      else if next = '\\' then
        bump
        match ← peek with
        | none => fail .unterminatedEscape
        | some escaped =>
          if escaped ∈ ['\'', '\x7B', '\x7D', '\\'] then
            bump
            parseParts quoted opening left parts (text ++ [escaped])
          else failAt start (.invalidEscape escaped)
      else if next = '\x7B' then
        bump
        let hole ← expr
        expect '\x7D'
        parseParts quoted opening left (parts ++ flush text ++ [.hole hole]) []
      else
        bump
        parseParts quoted opening left parts (text ++ [next])

/-- `parse_literal_parts`. -/
def parseLiteralParts (quoted : Bool) : Parser (List LiteralPart) := do
  let opening ← get
  if quoted then expect '\''
  parseParts expr quoted opening (← get).length [] []

end Literals

section Primaries

variable (literal : Parser (List LiteralPart))

/-- The text of a part without a hole. -/
def LiteralPart.constant : LiteralPart → Option Str
  | .text constant => some constant
  | .hole _ => none

/-- `parse_query_selector`. -/
def parseQuerySelector : Parser QuerySelector := do
  skipWhitespace
  let offset ← get
  if (← peek) = some '\'' then
    let parts ← literal
    match parts.mapM LiteralPart.constant with
    | some texts => pure (.literal texts.flatten)
    | none => failAt offset .constantSelector
  else
    let name ← readIdent
    skipWhitespace
    if name = "sibling".toList ∧ (← peek) = some '<' then
      bump
      let sibling ← readIdent
      expect '>'
      pure (.sibling sibling)
    else pure (.literal name)

def QueryShape.fromKeyword (keyword : Str) : Option QueryShape :=
  if keyword = "scalar".toList then some scalar else if keyword = "block".toList then
    some block else none

def QueryValueKind.fromKeyword (keyword : Str) : Option QueryValueKind :=
  if keyword = "int".toList then some int
  else if keyword = "float".toList then some float
  else if keyword = "bool".toList then some bool
  else none

/-- One value kind. -/
def parseValueKind : Parser QueryValueKind := do
  let kindOffset ← get
  let kind ← readIdent
  match QueryValueKind.fromKeyword kind with
  | some kind => pure kind
  | none => failAt kindOffset (.unknownValueKind kind)

/-- The loop over the value kinds behind the first one. -/
def parseValueKinds : Nat → Parser (List QueryValueKind)
  | 0 => pure []
  | left + 1 => do
    skipWhitespace
    if (← peek) ≠ some '|' then pure []
    else
      bump
      let kind ← parseValueKind
      let kinds ← parseValueKinds left
      pure (kind :: kinds)

/-- The filters of a query. -/
inductive FilterKind where
  | key
  | scopeAccepts
  | shape
  | valueKindAny
  | callArgs
  | capability
  deriving DecidableEq

namespace FilterKind

def keyword : FilterKind → Str
  | key => "key".toList
  | scopeAccepts => "scope_accepts".toList
  | shape => "shape".toList
  | valueKindAny => "value_kind_any".toList
  | callArgs => "call_args".toList
  | capability => "capability".toList

def all : List FilterKind := [key, scopeAccepts, shape, valueKindAny, callArgs, capability]

def fromKeyword (keyword : Str) : Option FilterKind := all.find? fun kind => kind.keyword = keyword

end FilterKind

/-- One filter behind its `=`. -/
def parseFilter (offset : Str) (filter : Str) (query : FieldQuery) : Parser FieldQuery :=
  match FilterKind.fromKeyword filter with
  | some .key => do
    let selector ← parseQuerySelector literal
    pure { query with selector := some selector }
  | some .scopeAccepts => do
    let scope ← readIdent
    pure { query with scopeAccepts := some scope }
  | some .shape => do
    let keyword ← readIdent
    match QueryShape.fromKeyword keyword with
    | some shape => pure { query with shape := some shape }
    | none => failAt offset (.unknownShape keyword)
  | some .valueKindAny => do
    expect '('
    let kind ← parseValueKind
    let kinds ← parseValueKinds (← get).length
    expect ')'
    pure { query with valueKindAny := query.valueKindAny ++ kind :: kinds }
  | some .callArgs => do
    let arguments ← readIdent
    if arguments ≠ "none".toList then failAt offset .callArgsOnlyNone else
      pure { query with callArgsNone := true }
  | some .capability => do
    let capability ← readIdent
    pure { query with capability := some capability }
  | none => failAt offset (.unknownFilter filter)

/-- The loop over the filters. -/
def parseFilters : Nat → List Str → FieldQuery → Parser FieldQuery
  | 0, _, query => pure query
  | left + 1, seen, query => do
    skipWhitespace
    if (← peek) ≠ some ',' then pure query
    else
      bump
      skipWhitespace
      let offset ← get
      let filter ← readIdent
      if filter ∈ seen then failAt offset (.duplicateFilter filter)
      else
        expect '='
        let query ← parseFilter literal offset filter query
        parseFilters left (filter :: seen) query

/-- `parse_query`. -/
def parseQuery (projection : QueryProjection) : Parser FieldQuery := do
  expect '<'
  let schema ← readIdent
  let query ← parseFilters literal (← get).length [] ⟨schema, projection, none, none, none,
    [], none, false⟩
  expect '>'
  if projection = .values ∧ query.selector = none then fail .valuesRequireKey
  else if projection = .values ∧ query.shape = some .block then fail .valuesOfBlock
  else if query.callArgsNone = true ∧ query.shape ≠ some .scalar then fail .callArgsRequireScalar
  else pure query

/-- The constructors with an argument. -/
def constructor? (keyword : Str) : Option (Argument → Primary) :=
  if keyword = "ref".toList then some .ref
  else if keyword = "def".toList then some .define
  else if keyword = "enum".toList then some .enum
  else if keyword = "scope".toList then some .scope
  else none

def QueryProjection.fromKeyword (keyword : Str) : Option QueryProjection :=
  if keyword = "keysof".toList then some keys else if keyword = "valuesof".toList then
    some values else none

/-- What follows a keyword in `parse_primary`. -/
def parseKeyword (start : Str) (keyword : Str) : Parser Primary :=
  match ScalarKind.fromKeyword keyword with
  | some kind => .scalar kind <$> parseRange kind
  | none =>
    match QueryProjection.fromKeyword keyword with
    | some projection => .query <$> parseQuery literal projection
    | none =>
      if keyword = "path".toList then do
        skipWhitespace
        if (← peek) = some '<' then
          bump
          let name ← readIdent
          expect '>'
          pure (.path (some name))
        else pure (.path none)
      else
        match constructor? keyword with
        | some constructor => do
          expect '<'
          let argument ← parseArgument
          expect '>'
          pure (constructor argument)
        | none =>
          if keyword = "quoted".toList then failAt start .quotedRemoved
          else failAt start (.unknownTypeExpression keyword)

/-- `parse_primary`. -/
def parsePrimary : Parser Primary := do
  skipWhitespace
  let start ← get
  match ← peek with
  | none => fail (.typeExpression none)
  | some first =>
    if first = '$' then .param <$> parseParam
    else if first = '\'' then .literal <$> literal
    else if isIdentStart first then do
      let keyword ← readIdent
      parseKeyword literal start keyword
    else fail (.typeExpression (some first))

/-- The loop over the alternatives behind the first one. -/
def parseAlternatives : Nat → Parser (List Primary)
  | 0 => pure []
  | left + 1 => do
    skipWhitespace
    if (← peek) ≠ some '|' then pure []
    else
      bump
      let primary ← parsePrimary literal
      let primaries ← parseAlternatives left
      pure (primary :: primaries)

end Primaries

/-- `parse_expr`, by the literals that may be within one another. Without a character left there is
no expression. -/
def parseExpr : Nat → Parser Expr
  | 0 => do
    skipWhitespace
    fail (.typeExpression (← peek))
  | level + 1 => do
    let literal := parseLiteralParts (parseExpr level) true
    let first ← parsePrimary literal
    let others ← parseAlternatives literal (← get).length
    pure (.mk (first :: others))

/-! ## Entry points -/

/-- A parse failure with its byte offset and its column. -/
structure ParseError where
  offset : Nat
  column : Nat
  message : Message

/-- A failure by its place in the source. -/
def locate (source : Str) (failure : Failure Message) : ParseError where
  offset := byteLen source - byteLen failure.rest
  column := source.length - failure.rest.length + 1
  message := failure.message

/-- `parse`. -/
def parse (source : Str) : Except ParseError Expr :=
  match parseExpr source.length source with
  | .error failure => .error (locate source failure)
  | .ok (expr, left) =>
    match Scanning.skip isWhitespace left with
    | [] => .ok expr
    | found :: rest => .error (locate source ⟨found :: rest, .trailingInput found⟩)

/-- `parse_template`. -/
def parseTemplate (source : Str) : Except ParseError (List LiteralPart) :=
  match parseLiteralParts (parseExpr source.length) false source with
  | .error failure => .error (locate source failure)
  | .ok (parts, left) =>
    match Scanning.skip isWhitespace left with
    | [] => .ok parts
    | found :: rest => .error (locate source ⟨found :: rest, .trailingTemplate⟩)

example : (parse "int[ 1 .. 10 ] | 'it\\'s_\x7Bref<event . $S>\x7D'".toList).isOk =
    true := by decide +kernel

example : (parse "bool[0..1]".toList).isOk = false := by decide +kernel

end ParadoxCode.Rules.TypeExpr
