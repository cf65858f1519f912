import ParadoxCode.Parser.Denotes
import ParadoxCode.Parser.Script

/-!
# The script grammar

What the script parser computes, as a function of the text and without a state: `readItems` cuts a
text into items, and the nodes, the tokens and the errors of a parse are read off the items and the
offset they start at. No character is lost: the texts of the items are the text.

An item is what one round of the parser's loop takes off the text. Whitespace between items is kept
character by character.
-/

namespace ParadoxCode.Script

open ParadoxCode.Parser

/-! ## Characters -/

def isSpace (c : Char) : Bool :=
  c == ' ' || c == '\t' || c == '\n' || c == '\x0C' || c == '\r'

def isLineEnd (c : Char) : Bool := c == '\r' || c == '\n'

/-- The characters of the delimiters. -/
def isDelimiterChar (c : Char) : Bool :=
  c == '\x7B' || c == '\x7D' || c == '[' || c == ']' || c == '#' || c == '=' || c == '<' ||
    c == '>' || c == '!' || c == '?' || c == '"'

/-- The characters of a bare word. -/
def isBare (c : Char) : Bool := !(isSpace c || isDelimiterChar c)

def startsOperator (c : Char) : Bool := c == '=' || c == '<' || c == '>' || c == '!' || c == '?'

/-! ## Items -/

/-- A bare word, or a string with what stands between its quotes. -/
inductive Scalar where
  | bare (word : Str)
  | quoted (body : Str) (closed : Bool)
  deriving DecidableEq

/-- A delimiter where it is there. -/
def closing (delimiter : Char) (closed : Bool) : Str := if closed then [delimiter] else []

def Scalar.text : Scalar → Str
  | bare word => word
  | quoted body closed => '"' :: body ++ closing '"' closed

/-- The condition of a parameter block. -/
structure Condition where
  negated : Bool
  name : Str
  gap : Str
  closed : Bool
  deriving DecidableEq

/-- The part of a condition that its node covers. -/
def Condition.head (condition : Condition) : Str := closing '!' condition.negated ++ condition.name

def Condition.text (condition : Condition) : Str :=
  condition.head ++ condition.gap ++ closing ']' condition.closed

/-- The items of a script. A block of a header and a value of a property are items too. -/
inductive Item where
  | space (c : Char)
  | comment (body : Str)
  | stray (c : Char) (message : String)
  | scalar (s : Scalar)
  | block (items : List Item) (closed : Bool)
  | parameter (condition : Condition) (items : List Item) (closed : Bool)
  | header (name : Scalar) (gap : Str) (body : Item)
  | property (key : Scalar) (gap operator gap' : Str) (value : Item)
  | missing (key : Scalar) (gap operator gap' : Str)

mutual

def Item.text : Item → Str
  | .space c => [c]
  | .comment body => '#' :: body
  | .stray c _ => [c]
  | .scalar s => s.text
  | .block items closed => '\x7B' :: Item.texts items ++ closing '\x7D' closed
  | .parameter condition items closed =>
    '[' :: '[' :: condition.text ++ Item.texts items ++ closing ']' closed
  | .header name gap body => name.text ++ gap ++ body.text
  | .property key gap operator gap' value => key.text ++ gap ++ operator ++ gap' ++ value.text
  | .missing key gap operator gap' => key.text ++ gap ++ operator ++ gap'

def Item.texts : List Item → Str
  | [] => []
  | item :: items => item.text ++ Item.texts items

end

example : Item.texts [.space ' ', .comment ['x']] =
    [' ', '#', 'x'] := by simp [Item.texts, Item.text]

/-! ## Nodes -/

/-- The node around a text. -/
def spanning (kind : CstKind) (start : Nat) (text : Str) (children : List CstNode) : CstNode :=
  .mk kind (range start (start + byteLen text)) children

def Scalar.kind : Scalar → CstKind
  | bare _ => .bareValue
  | quoted _ _ => .quotedString

def Scalar.node (start : Nat) (scalar : Scalar) : CstNode :=
  spanning scalar.kind start scalar.text []

/-- `!` and `?` alone are no operators. -/
def isOperator (operator : Str) : Bool := operator != ['!'] && operator != ['?']

def operatorNode (start : Nat) (operator : Str) : CstNode :=
  spanning (if isOperator operator then .operator else .error) start operator []

/-- The name of a condition, or the error node in its place. -/
def Condition.nameNode (start : Nat) (condition : Condition) : CstNode :=
  if condition.name = [] then spanning .error start condition.head []
  else spanning .bareValue (start + byteLen (closing '!' condition.negated)) condition.name []

def Condition.node (start : Nat) (condition : Condition) : CstNode :=
  spanning .parameterCondition start condition.head [condition.nameNode start]

/-- The node of a property around the nodes of its value. -/
def propertyNode (start : Nat) (key : Scalar) (gap operator gap' value : Str)
    (children : List CstNode) : CstNode :=
  let front := key.text ++ gap
  spanning .property start (front ++ operator ++ gap' ++ value)
    [spanning .key start key.text [key.node start],
      operatorNode (start + byteLen front) operator,
      spanning .value (start + byteLen (front ++ operator ++ gap')) value children]

mutual

/-- The nodes of an item at an offset: one, or none for whitespace. -/
def Item.nodes (start : Nat) : Item → List CstNode
  | .space _ => []
  | .comment body => [spanning .comment start ('#' :: body) []]
  | .stray c _ => [spanning .error start [c] []]
  | .scalar s => [s.node start]
  | .block items closed =>
    [spanning .block start (Item.text (.block items closed)) (Item.nodesAll (start + 1) items)]
  | .parameter condition items closed =>
    [spanning .parameterBlock start (Item.text (.parameter condition items closed))
      (condition.node (start + 2) ::
        Item.nodesAll (start + 2 + byteLen condition.text) items)]
  | .header name gap body =>
    [spanning .headerBlock start (Item.text (.header name gap body))
      (name.node start :: Item.nodes (start + byteLen (name.text ++ gap)) body)]
  | .property key gap operator gap' value =>
    [propertyNode start key gap operator gap' value.text
      (Item.nodes (start + byteLen (key.text ++ gap ++ operator ++ gap')) value)]
  | .missing key gap operator gap' =>
    [propertyNode start key gap operator gap' []
      [spanning .error (start + byteLen (key.text ++ gap ++ operator ++ gap')) [] []]]

def Item.nodesAll (start : Nat) : List Item → List CstNode
  | [] => []
  | item :: items => item.nodes start ++ Item.nodesAll (start + byteLen item.text) items

end

example : Item.nodesAll 0 [.space ' ', .space '\n'] = [] := by simp [Item.nodesAll, Item.nodes]

/-! ## Tokens -/

def token (kind : TokenKind) (start : Nat) (text : Str) : SyntaxToken :=
  ⟨kind, range start (start + byteLen text)⟩

/-- A token of a text, where there is one. -/
def tokenOf (kind : TokenKind) (start : Nat) (text : Str) : List SyntaxToken :=
  if text = [] then [] else [token kind start text]

def Scalar.tokenKind : Scalar → TokenKind
  | bare _ => .bare
  | quoted _ _ => .quoted

def Scalar.tokens (start : Nat) (scalar : Scalar) : List SyntaxToken :=
  [token scalar.tokenKind start scalar.text]

def operatorTokens (start : Nat) (operator : Str) : List SyntaxToken :=
  if isOperator operator then [token .operator start operator] else []

def Condition.tokens (start : Nat) (condition : Condition) : List SyntaxToken :=
  tokenOf .bare (start + byteLen (closing '!' condition.negated)) condition.name ++
    tokenOf .closeDelimiter (start + byteLen (condition.head ++ condition.gap))
      (closing ']' condition.closed)

mutual

/-- The tokens of an item at an offset. -/
def Item.tokens (start : Nat) : Item → List SyntaxToken
  | .space _ => []
  | .comment body => [token .comment start ('#' :: body)]
  | .stray _ _ => []
  | .scalar s => s.tokens start
  | .block items closed =>
    token .openDelimiter start ['\x7B'] :: Item.tokensAll (start + 1) items ++
      tokenOf .closeDelimiter (start + 1 + byteLen (Item.texts items)) (closing '\x7D' closed)
  | .parameter condition items closed =>
    let body := start + 2 + byteLen condition.text
    token .openDelimiter start ['['] :: token .openDelimiter (start + 1) ['['] ::
      condition.tokens (start + 2) ++ Item.tokensAll body items ++
        tokenOf .closeDelimiter (body + byteLen (Item.texts items)) (closing ']' closed)
  | .header name gap body =>
    name.tokens start ++ Item.tokens (start + byteLen (name.text ++ gap)) body
  | .property key gap operator gap' value =>
    key.tokens start ++ operatorTokens (start + byteLen (key.text ++ gap)) operator ++
      Item.tokens (start + byteLen (key.text ++ gap ++ operator ++ gap')) value
  | .missing key gap operator _ =>
    key.tokens start ++ operatorTokens (start + byteLen (key.text ++ gap)) operator

def Item.tokensAll (start : Nat) : List Item → List SyntaxToken
  | [] => []
  | item :: items => item.tokens start ++ Item.tokensAll (start + byteLen item.text) items

end

example : Item.tokensAll 0 [.space ' ', .space '\n'] = [] := by simp [Item.tokensAll, Item.tokens]

/-! ## Errors -/

/-- The first 24 characters of a text, for a message. -/
def shorten (text : Str) : String :=
  if (text.drop 24).isEmpty then String.ofList text else String.ofList (text.take 24) ++ "..."

/-- Where an item stands. -/
inductive Place where
  | top
  | nested
  | value
  deriving DecidableEq

/-- The place of the items of a container. -/
def placeIn : Option Char → Place
  | none => .top
  | some _ => .nested

def Scalar.errors (start : Nat) : Scalar → List SyntaxError
  | bare _ => []
  | quoted body closed =>
    if closed then []
    else [⟨.unterminatedString, range start (start + byteLen (Scalar.text (.quoted body closed))),
      "quoted string is missing `\""⟩]

/-- The report on a string at top level that is no key. -/
def Scalar.unassigned (place : Place) (start : Nat) : Scalar → List SyntaxError
  | bare _ => []
  | quoted body closed =>
    if place = .top then
      [⟨.unexpectedToken, range start (start + byteLen (Scalar.text (.quoted body closed))),
        "a top-level script value must be assigned to a key"⟩]
    else []

def operatorErrors (start : Nat) (operator : Str) : List SyntaxError :=
  if isOperator operator then []
  else [⟨.unexpectedToken, range start (start + byteLen operator),
    "invalid operator `" ++ shorten operator ++ "`"⟩]

def Condition.errors (start : Nat) (condition : Condition) : List SyntaxError :=
  (if condition.name = [] then
    [⟨.unexpectedToken, range start (start + byteLen condition.head),
      "parameter block is missing a condition"⟩]
  else []) ++
    if condition.closed then []
    else
      let gap := start + byteLen (condition.head ++ condition.gap)
      [⟨.unexpectedToken, range gap gap, "parameter condition is missing `]`"⟩]

/-- The report on a container that is not closed at the end of the source. -/
def unterminated (kind : SyntaxErrorKind) (start stop : Nat) (message : String) (closed : Bool) :
    List SyntaxError :=
  if closed then [] else [⟨kind, range start stop, message⟩]

mutual

/-- The errors of an item at an offset, in the order of their reports; `stop` is the end of the
source. -/
def Item.errors (stop : Nat) (place : Place) (start : Nat) : Item → List SyntaxError
  | .space _ => []
  | .comment _ => []
  | .stray c message => [⟨.unexpectedToken, range start (start + byteLen [c]), message⟩]
  | .scalar s => s.errors start ++ s.unassigned place start
  | .block items closed =>
    Item.errorsAll stop .nested (start + 1) items ++
      unterminated .unterminatedBlock start stop "script block is missing `\x7d`" closed
  | .parameter condition items closed =>
    condition.errors (start + 2) ++
      Item.errorsAll stop .nested (start + 2 + byteLen condition.text) items ++
        unterminated .unterminatedParameterBlock start stop "parameter block is missing `]`" closed
  | .header name gap body =>
    name.errors start ++ Item.errors stop .nested (start + byteLen (name.text ++ gap)) body
  | .property key gap operator gap' value =>
    key.errors start ++ operatorErrors (start + byteLen (key.text ++ gap)) operator ++
      Item.errors stop .value (start + byteLen (key.text ++ gap ++ operator ++ gap')) value
  | .missing key gap operator gap' =>
    key.errors start ++ operatorErrors (start + byteLen (key.text ++ gap)) operator ++
      [⟨.missingValue, range start (start + byteLen (key.text ++ gap ++ operator ++ gap')),
        "`" ++ shorten key.text ++ "` is missing a value"⟩]

def Item.errorsAll (stop : Nat) (place : Place) (start : Nat) : List Item → List SyntaxError
  | [] => []
  | item :: items =>
    item.errors stop place start ++ Item.errorsAll stop place (start + byteLen item.text) items

end

example : Item.errorsAll 2 .top 0 [.space ' ', .comment ['x']] =
    [] := by simp [Item.errorsAll, Item.errors]

/-! ## Reading -/

/-- The string behind an opening quote: what it holds, whether it is closed, and what follows. A
backslash takes the next character with it. -/
def splitQuoted : Str → Str × Bool × Str
  | [] => ([], false, [])
  | c :: rest =>
    if c = '"' then ([], true, rest)
    else if c = '\\' then
      match rest with
      | [] => ([c], false, [])
      | d :: rest =>
        let (body, closed, rest) := splitQuoted rest
        (c :: d :: body, closed, rest)
    else
      let (body, closed, rest) := splitQuoted rest
      (c :: body, closed, rest)

theorem splitQuoted_quote (rest : Str) : splitQuoted ('"' :: rest) = ([], true, rest) := by
  unfold splitQuoted
  rfl

theorem splitQuoted_slash : splitQuoted ['\\'] = (['\\'], false, []) := by
  unfold splitQuoted
  rfl

theorem splitQuoted_escape (d : Char) (rest : Str) :
    splitQuoted ('\\' :: d :: rest) =
      ('\\' :: d :: (splitQuoted rest).1, (splitQuoted rest).2.1, (splitQuoted rest).2.2) := by
  rw [splitQuoted.eq_def]
  rfl

theorem splitQuoted_char {c : Char} (hquote : c ≠ '"') (hslash : c ≠ '\\') (rest : Str) :
    splitQuoted (c :: rest) =
      (c :: (splitQuoted rest).1, (splitQuoted rest).2.1, (splitQuoted rest).2.2) := by
  rw [splitQuoted.eq_def]
  dsimp only
  rw [if_neg hquote, if_neg hslash]

def readQuoted (cs : Str) : Scalar × Str :=
  let (body, closed, rest) := splitQuoted cs
  (.quoted body closed, rest)

/-- The operator at the front of a text that starts with a character of one. -/
def splitOperator : Str → Str × Str
  | c :: '=' :: rest => ([c, '='], rest)
  | c :: rest => ([c], rest)
  | [] => ([], [])

theorem splitOperator_ne {c : Char} {cs operator rest : Str}
    (h : splitOperator (c :: cs) = (operator, rest)) : operator ≠ [] := by
  unfold splitOperator at h
  split at h
  · cases h
    exact List.cons_ne_nil _ _
  · cases h
    exact List.cons_ne_nil _ _
  · rename_i hnil
    cases hnil

/-- Whether a text goes on with a delimiter, and what follows it. -/
def splitClosing (delimiter : Char) (cs : Str) : Bool × Str :=
  if cs.head? = some delimiter then (true, cs.tail) else (false, cs)

section

variable (container : Option Char → Str → Option (List Item × Str))

/-- The block behind an opening brace. -/
def readBlock (cs : Str) : Option (Item × Str) :=
  (container (some '\x7D') cs).map fun (items, rest) =>
    let (closed, rest) := splitClosing '\x7D' rest
    (.block items closed, rest)

/-- The condition behind two opening brackets. -/
def readCondition (cs : Str) : Condition × Str :=
  let (negated, cs) := splitClosing '!' cs
  let name := cs.takeWhile isBare
  let cs := cs.dropWhile isBare
  let gap := cs.takeWhile isSpace
  let (closed, cs) := splitClosing ']' (cs.dropWhile isSpace)
  (⟨negated, name, gap, closed⟩, cs)

/-- The parameter block behind two opening brackets. -/
def readParameter (cs : Str) : Option (Item × Str) :=
  let (condition, cs) := readCondition cs
  (container (some ']') cs).map fun (items, rest) =>
    let (closed, rest) := splitClosing ']' rest
    (.parameter condition items closed, rest)

/-- What follows a scalar, where a block may: the scalar alone leaves the whitespace behind it. -/
def readHeader (scalar : Scalar) (cs : Str) : Option (Item × Str) :=
  let gap := cs.takeWhile isSpace
  match cs.dropWhile isSpace with
  | '\x7B' :: rest => (readBlock container rest).map fun (block, rest) =>
      (.header scalar gap block, rest)
  | _ => some (.scalar scalar, cs)

/-- A value: there is a first character, and it is none of `# } ]`. -/
def readValue (cs : Str) : Option (Item × Str) :=
  match cs with
  | '"' :: rest =>
    let (scalar, rest) := readQuoted rest
    some (.scalar scalar, rest)
  | '\x7B' :: rest => readBlock container rest
  | '[' :: '[' :: rest => readParameter container rest
  | c :: rest =>
    if isBare c then
      readHeader container (.bare (cs.takeWhile isBare)) (cs.dropWhile isBare)
    else some (.stray c ("expected a value, found `" ++ shorten [c] ++ "`"), rest)
  | [] => none

/-- The property of a key, from the operator on. -/
def readProperty (key : Scalar) (gap cs : Str) : Option (Item × Str) :=
  let (operator, cs) := splitOperator cs
  let gap' := cs.takeWhile isSpace
  let cs := cs.dropWhile isSpace
  match cs with
  | [] | '#' :: _ | '\x7D' :: _ | ']' :: _ => some (.missing key gap operator gap', cs)
  | _ => (readValue container cs).map fun (value, rest) =>
    (.property key gap operator gap' value, rest)

/-- What follows a scalar in a container. -/
def readScalar (scalar : Scalar) (cs : Str) : Option (Item × Str) :=
  match cs.dropWhile isSpace with
  | c :: rest =>
    if startsOperator c then readProperty container scalar (cs.takeWhile isSpace) (c :: rest)
    else readHeader container scalar cs
  | [] => some (.scalar scalar, cs)

/-- The item at the front of a text that starts with no whitespace. -/
def readItem (cs : Str) : Option (Item × Str) :=
  match cs with
  | '#' :: rest =>
    some (.comment (rest.takeWhile fun c => !isLineEnd c), rest.dropWhile fun c => !isLineEnd c)
  | '\x7D' :: rest => some (.stray '\x7D' "unexpected `\x7d`", rest)
  | ']' :: rest => some (.stray ']' "unexpected `]`", rest)
  | '\x7B' :: rest => readBlock container rest
  | '"' :: rest =>
    let (scalar, rest) := readQuoted rest
    readScalar container scalar rest
  | '[' :: '[' :: rest => readParameter container rest
  | c :: rest =>
    if isBare c then readScalar container (.bare (cs.takeWhile isBare)) (cs.dropWhile isBare)
    else some (.stray c ("unexpected character `" ++ shorten [c] ++ "`"), rest)
  | [] => none

end

/-- The items of a container up to its terminator, and the rest of the text from there on. -/
def readItems : Nat → Option Char → Str → Option (List Item × Str)
  | 0, _, _ => none
  | fuel + 1, terminator, cs =>
    let gap := (cs.takeWhile isSpace).map Item.space
    let cs := cs.dropWhile isSpace
    if cs = [] ∨ terminator ≠ none ∧ cs.head? = terminator then some (gap, cs)
    else
      (readItem (readItems fuel) cs).bind fun (item, rest) =>
        (readItems fuel terminator rest).map fun (items, rest) => (gap ++ item :: items, rest)

end ParadoxCode.Script
