import ParadoxCode.Parser.Cst

/-!
# The script parser

`script.rs`. The parser is a program over its state (`Run`): a slice or an index that panics in the
source has no result here. A loop over the bytes at the cursor runs over the list of these bytes;
the loops that step by characters and the recursion over containers take fuel, and running out of it
has no result either.

The guard of a bounded parse is a function of a state of its own. It is called with the offset, the
number of nodes and the depth and says whether to go on.
-/

namespace ParadoxCode.Script

open ParadoxCode.Parser

/-- The guard of a bounded parse. -/
def Guard (σ : Type) : Type := σ → Nat → Nat → Nat → Bool × σ

/-- `Parser`, less the guard function and the source, which are parameters. -/
structure Parser (σ : Type) where
  guardState : σ
  work : Nat
  nodes : Nat
  depth : Nat
  stopped : Bool
  position : Nat
  tokens : List SyntaxToken
  errors : List SyntaxError
  tree : SyntaxTreeBuilder

/-- `Parser::new`. -/
def Parser.new {σ : Type} (guardState : σ) : Parser σ :=
  ⟨guardState, 0, 0, 0, false, 0, [], [], .empty⟩

abbrev ParseM (σ : Type) := Run (Parser σ)

/-- The delimiters that end a bare scalar: `{ } [ ] # = < > ! ? "`. -/
def isDelimiter (byte : UInt8) : Bool :=
  byte == 0x7B || byte == 0x7D || byte == 0x5B || byte == 0x5D || byte == 0x23 || byte == 0x3D ||
    byte == 0x3C || byte == 0x3E || byte == 0x21 || byte == 0x3F || byte == 0x22

section

variable {σ : Type} (guard : Option (Guard σ)) (source : List Char)

/-! ## Primitives -/

def position : ParseM σ Nat := Run.read Parser.position

def setPosition (position : Nat) : ParseM σ Unit :=
  Run.modify fun parser => { parser with position }

/-- `self.position += count`. -/
def advance (count : Nat) : ParseM σ Unit :=
  Run.modify fun parser => { parser with position := parser.position + count }

/-- `self.position.saturating_add(1).min(self.source.len())`, stored in the cursor. -/
def advanceOne : ParseM σ Unit :=
  Run.modify fun parser =>
    { parser with position := min (parser.position + 1) (byteLen source) }

/-- The bytes at the cursor. -/
def rest : ParseM σ (List UInt8) := Run.read fun parser => bytesAt source parser.position

def peek : ParseM σ (Option UInt8) := Run.read fun parser => (bytesAt source parser.position).head?

def isSaturated : ParseM σ Bool := Run.read fun parser => parser.tree.saturated

/-- `self.source[self.position..].chars().next()`. -/
def nextChar : ParseM σ (Option Char) := do
  let position ← position
  if isCharBoundary source position then
    match Utf8.decodeFirst (bytesAt source position) with
    | .char character _ => pure (some character)
    | _ => pure none
  else Run.fail

/-- Counts one unit of work and asks the guard, at every unit or at every 256th. -/
def checkWork (force : Bool) : ParseM σ Bool := fun parser =>
  if parser.stopped then some (false, parser)
  else
    let parser := { parser with work := parser.work + 1 }
    match guard with
    | none => some (true, parser)
    | some guard =>
      if force || parser.work % 256 == 0 then
        let (goOn, guardState) := guard parser.guardState parser.position parser.nodes parser.depth
        if goOn then some (true, { parser with guardState })
        else some (false,
          { parser with guardState, stopped := true, position := byteLen source })
      else some (true, parser)

/-- The arena part of `node`. -/
def emit (kind : CstKind) (range : TextRange) (childCount : Nat) : ParseM σ Nat := fun parser =>
  (parser.tree.node kind range childCount).map fun (index, tree) =>
    (index, { parser with nodes := parser.nodes + 1, tree })

/-- Emits one node whose children are the most recently pushed `childCount` indices. -/
def node (kind : CstKind) (start stop childCount : Nat) : ParseM σ Nat := do
  let _ ← checkWork guard source true
  emit kind (range start stop) childCount

/-- Queues one emitted node as a child of the parent under construction. -/
def push (index : Nat) : ParseM σ Unit :=
  Run.modify fun parser => { parser with tree := parser.tree.pushChild index }

def childrenMark : ParseM σ Nat := Run.read fun parser => parser.tree.children.length

def childrenSince (mark : Nat) : ParseM σ Nat := fun parser =>
  (parser.tree.childrenSince mark).map fun count => (count, parser)

def nodeRange (index : Nat) : ParseM σ TextRange := fun parser =>
  (parser.tree.nodeRange index).map fun range => (range, parser)

/-- Pushes the token between an offset and the cursor. -/
def pushToken (kind : TokenKind) (start : Nat) : ParseM σ Unit :=
  Run.modify fun parser =>
    { parser with tokens := parser.tokens ++ [⟨kind, range start parser.position⟩] }

def error (kind : SyntaxErrorKind) (start stop : Nat) (message : String) : ParseM σ Unit :=
  Run.modify fun parser =>
    { parser with errors := parser.errors ++ [⟨kind, range start stop, message⟩] }

/-- The source text of a byte range, for quoting the offending token in a message. -/
def slice (start stop : Nat) : List Char :=
  let stop := min stop (byteLen source)
  let start := min start stop
  (getText source start stop).getD []

/-- `slice`, truncated to 24 characters. -/
def snippet (start stop : Nat) : String :=
  let text := slice source start stop
  if (text.drop 24).isEmpty then String.ofList text else String.ofList (text.take 24) ++ "..."

/-! ## Scanners -/

/-- Consumes bytes while `continues` holds, one unit of work for each. -/
def skipLoop (continues : UInt8 → Bool) : List UInt8 → ParseM σ Unit
  | [] => pure ()
  | byte :: rest => do
    if continues byte then
      let goOn ← checkWork guard source false
      if goOn then do advance 1; skipLoop continues rest
      else pure ()
    else pure ()

def skipWhitespace : ParseM σ Unit := do
  let bytes ← rest source
  skipLoop guard source isAsciiWhitespace bytes

def parseComment : ParseM σ Nat := do
  let start ← position
  let bytes ← rest source
  skipLoop guard source (fun byte => !(byte == 0x0D || byte == 0x0A)) bytes
  pushToken .comment start
  let stop ← position
  node guard source .comment start stop 0

/-- The loop of `parse_bare`: the unit of work is counted before the byte is looked at. -/
def bareLoop : List UInt8 → ParseM σ Unit
  | [] => pure ()
  | byte :: rest => do
    let goOn ← checkWork guard source false
    if goOn then
      if isAsciiWhitespace byte || isDelimiter byte then pure ()
      else do advance 1; bareLoop rest
    else pure ()

def parseBare : ParseM σ (Option Nat) := do
  let start ← position
  let bytes ← rest source
  bareLoop guard source bytes
  let stop ← position
  if stop = start then pure none
  else do
    pushToken .bare start
    let index ← node guard source .bareValue start stop 0
    pure (some index)

/-- Moves the cursor behind the character at it, where there is one; says whether there is. -/
def advanceChar : ParseM σ Bool := do
  let character ← nextChar source
  match character with
  | some character => do advance character.utf8Size; pure true
  | none => pure false

/-- Moves the cursor behind a backslash and the character it escapes. -/
def advanceEscape : ParseM σ Unit := do
  advance 1
  let position ← position
  if position < byteLen source then do
    let _ ← advanceChar source
    pure ()
  else pure ()

/-- The loop of `parse_quoted`: whether it found the closing quote. -/
def quotedLoop : Nat → ParseM σ Bool
  | 0 => Run.fail
  | fuel + 1 => do
    let byte ← peek source
    match byte with
    | none => pure false
    | some byte => do
      let goOn ← checkWork guard source false
      if goOn then
        if byte = 0x22 then do advance 1; pure true
        else if byte = 0x5C then do advanceEscape source; quotedLoop fuel
        else do
          let found ← advanceChar source
          if found then quotedLoop fuel else pure false
      else pure false

/-- The report on a string that is not closed. -/
def reportUnclosed (closed : Bool) (start stop : Nat) : ParseM σ Unit :=
  if closed then pure ()
  else error .unterminatedString start stop "quoted string is missing `\""

def parseQuoted (kind : CstKind) : ParseM σ Nat := do
  let start ← position
  advance 1
  let closed ← quotedLoop guard source (byteLen source + 1)
  let stop ← position
  pushToken .quoted start
  reportUnclosed closed start stop
  node guard source kind start stop 0

/-- The length of the operator at the front of some bytes: `>= <= != == ?=` or `= > <`. -/
def operatorLength (bytes : List UInt8) : Option Nat :=
  match bytes with
  | 0x3E :: 0x3D :: _ | 0x3C :: 0x3D :: _ | 0x21 :: 0x3D :: _ | 0x3D :: 0x3D :: _
  | 0x3F :: 0x3D :: _ => some 2
  | 0x3D :: _ | 0x3E :: _ | 0x3C :: _ => some 1
  | _ => none

def parseOperator : ParseM σ (Option Nat) := do
  let start ← position
  if byteLen source < start then Run.fail
  else do
    let bytes ← rest source
    match operatorLength bytes with
    | none => pure none
    | some length => do
      advance length
      pushToken .operator start
      let stop ← position
      let index ← node guard source .operator start stop 0
      pure (some index)

def operatorStartsHere : ParseM σ Bool := do
  let byte ← peek source
  pure (byte = some 0x3D || byte = some 0x3C || byte = some 0x3E || byte = some 0x21 ||
    byte = some 0x3F)

def startsParameterBlock : ParseM σ Bool := do
  let bytes ← rest source
  pure (bytes.take 2 = [0x5B, 0x5B])

def consumeDelimiter (kind : TokenKind) : ParseM σ Unit := do
  let start ← position
  advanceOne source
  pushToken kind start

/-- `consume_expected(b'{')`. -/
def consumeOpenBrace : ParseM σ Unit := do
  let byte ← peek source
  if byte = some 0x7B then consumeDelimiter source .openDelimiter else pure ()

/-! ## The grammar

`container` is the recursive call of `parse_container`. -/

/-- Closes a block or reports that it is not closed. -/
def closeOr (delimiter : UInt8) (kind : SyntaxErrorKind) (start : Nat) (message : String) :
    ParseM σ Unit := do
  let byte ← peek source
  if byte = some delimiter then consumeDelimiter source .closeDelimiter
  else error kind start (byteLen source) message

section

variable (container : Option UInt8 → ParseM σ Unit)

def parseBlock : ParseM σ Nat := do
  let start ← position
  consumeOpenBrace source
  let mark ← childrenMark
  container (some 0x7D)
  let children ← childrenSince mark
  closeOr source 0x7D .unterminatedBlock start "script block is missing `\x7d`"
  let stop ← position
  node guard source .block start (max stop start) children

/-- A leading `!` of a parameter condition. -/
def skipNegation : ParseM σ Unit := do
  let byte ← peek source
  if byte = some 0x21 then advance 1 else pure ()

/-- `condition.unwrap_or_else(..)`: the condition, or an error node in its place. -/
def conditionOrError (condition : Option Nat) (start stop : Nat) : ParseM σ Nat :=
  match condition with
  | some condition => pure condition
  | none => do
    error .unexpectedToken start stop "parameter block is missing a condition"
    node guard source .error start stop 0

def closeCondition : ParseM σ Unit := do
  let byte ← peek source
  if byte = some 0x5D then consumeDelimiter source .closeDelimiter
  else do
    let gap ← position
    error .unexpectedToken gap gap "parameter condition is missing `]`"

/-- The condition of a parameter block, up to the node queued for it. -/
def parseCondition : ParseM σ Unit := do
  let conditionStart ← position
  skipNegation source
  let condition ← parseBare guard source
  let conditionEnd ← position
  let condition ← conditionOrError guard source condition conditionStart conditionEnd
  skipWhitespace guard source
  closeCondition source
  push condition
  let conditionNode ← node guard source .parameterCondition conditionStart conditionEnd 1
  push conditionNode

def parseParameterBlock : ParseM σ Nat := do
  let start ← position
  consumeDelimiter source .openDelimiter
  consumeDelimiter source .openDelimiter
  parseCondition guard source
  let mark ← childrenMark
  container (some 0x5D)
  let since ← childrenSince mark
  closeOr source 0x5D .unterminatedParameterBlock start "parameter block is missing `]`"
  let stop ← position
  node guard source .parameterBlock start (max stop start) (since + 1)

/-- `block` behind the scalar `first`, with the header node around both. -/
def parseHeader (start first : Nat) : ParseM σ Nat := do
  let block ← parseBlock guard source container
  let range ← nodeRange block
  push first
  push block
  node guard source .headerBlock start range.stop 2

/-- Consumes one character and puts an error node in its place. -/
def recover (start : Nat) (message : String → String) : ParseM σ Nat := do
  advanceOne source
  let stop ← position
  error .unexpectedToken start stop (message (snippet source start stop))
  node guard source .error start stop 0

def parseValue : ParseM σ Nat := do
  let start ← position
  let byte ← peek source
  if byte = some 0x22 then parseQuoted guard source .quotedString
  else if byte = some 0x7B then parseBlock guard source container
  else do
    let parameter ← startsParameterBlock source
    if parameter then parseParameterBlock guard source container
    else do
      let value ← parseBare guard source
      match value with
      | none => recover guard source start fun text => "expected a value, found `" ++ text ++ "`"
      | some value => do
        skipWhitespace guard source
        let byte ← peek source
        if byte = some 0x7B then parseHeader guard source container start value
        else pure value

def operatorOrError : ParseM σ Nat := do
  let operatorStart ← position
  let operator ← parseOperator guard source
  match operator with
  | some token => pure token
  | none => recover guard source operatorStart fun text => "invalid operator `" ++ text ++ "`"

def valueOrError (key : Nat) : ParseM σ Nat := do
  let gap ← position
  let byte ← peek source
  if byteLen source ≤ gap ∨ byte = some 0x23 ∨ byte = some 0x7D ∨ byte = some 0x5D then do
    let keyRange ← nodeRange key
    error .missingValue keyRange.start gap
      ("`" ++ snippet source keyRange.start keyRange.stop ++ "` is missing a value")
    node guard source .error gap gap 0
  else parseValue guard source container

def parseProperty (start key : Nat) : ParseM σ Nat := do
  let operator ← operatorOrError guard source
  skipWhitespace guard source
  let value ← valueOrError guard source container key
  let keyRange ← nodeRange key
  push key
  let keyNode ← node guard source .key keyRange.start keyRange.stop 1
  let valueRange ← nodeRange value
  push value
  let valueNode ← node guard source .value valueRange.start valueRange.stop 1
  push keyNode
  push operator
  push valueNode
  node guard source .property start valueRange.stop 3

/-- What follows a scalar in a container: an operator, a block or nothing that belongs to it. -/
def afterScalar (start scalar : Nat) (alone : ParseM σ Unit) : ParseM σ Unit := do
  skipWhitespace guard source
  let operator ← operatorStartsHere source
  if operator then do
    let property ← parseProperty guard source container start scalar
    push property
  else do
    let byte ← peek source
    if byte = some 0x7B then do
      let header ← parseHeader guard source container start scalar
      push header
    else do
      alone
      push scalar

/-- The report on a quoted value at top level. -/
def unassigned (terminator : Option UInt8) (start quoted : Nat) : ParseM σ Unit :=
  if terminator = none then do
    let range ← nodeRange quoted
    error .unexpectedToken start range.stop "a top-level script value must be assigned to a key"
  else pure ()

/-- One round of the loop of `parse_container`, at a byte that does not end the container. -/
def parseItem (terminator : Option UInt8) : ParseM σ Unit := do
  let start ← position
  let byte ← peek source
  if byte = some 0x23 then do
    let comment ← parseComment guard source
    push comment
  else if byte = some 0x7D ∨ byte = some 0x5D then do
    advance 1
    let stop ← position
    error .unexpectedToken start stop
      (if byte = some 0x7D then "unexpected `\x7d`" else "unexpected `]`")
    let recovery ← node guard source .error start stop 0
    push recovery
  else do
    let first ← parseBare guard source
    match first with
    | some first => afterScalar guard source container start first (pure ())
    | none => do
      let byte ← peek source
      if byte = some 0x7B then do
        let block ← parseBlock guard source container
        push block
      else if byte = some 0x22 then do
        let quoted ← parseQuoted guard source .quotedString
        afterScalar guard source container start quoted (unassigned terminator start quoted)
      else do
        let parameter ← startsParameterBlock source
        if parameter then do
          let parameter ← parseParameterBlock guard source container
          push parameter
        else do
          let recovery ← recover guard source start fun text =>
            "unexpected character `" ++ text ++ "`"
          push recovery

end

/-- `parse_container` around its loop. -/
def parseContainer (loop : Option UInt8 → ParseM σ Unit) (terminator : Option UInt8) :
    ParseM σ Unit := do
  Run.modify fun parser => { parser with depth := parser.depth + 1 }
  let _ ← checkWork guard source true
  loop terminator
  Run.modify fun parser => { parser with depth := parser.depth - 1 }

/-- The loop of `parse_container`. A nested container gets the fuel of the next round. -/
def containerLoop : Nat → Option UInt8 → ParseM σ Unit
  | 0, _ => Run.fail
  | fuel + 1, terminator => do
    let goOn ← checkWork guard source false
    if goOn then do
      skipWhitespace guard source
      let position ← position
      let saturated ← isSaturated
      if byteLen source ≤ position ∨ saturated then pure ()
      else do
        let byte ← peek source
        if terminator ≠ none ∧ byte = terminator then pure ()
        else do
          parseItem guard source (parseContainer guard source (containerLoop fuel)) terminator
          containerLoop fuel terminator
    else pure ()

/-- The part that `parse` and `parse_guarded_prefix` share: the top-level container and the document
around it. -/
def parseDocument : ParseM σ Unit := do
  let mark ← childrenMark
  parseContainer guard source (containerLoop guard source (byteLen source + 1)) none
  let children ← childrenSince mark
  let _ ← node guard source .document 0 (byteLen source) children
  pure ()

def Parser.parts (parser : Parser σ) : ParseParts :=
  ⟨parser.tree.finish, parser.tokens, parser.errors⟩

/-- `parse_guarded_prefix`, with the final state of the guard. -/
def parseGuardedPrefix (guard : Guard σ) (guardState : σ) : Option (ParseParts × Bool × σ) :=
  (parseDocument (some guard) source (Parser.new guardState)).map fun (_, parser) =>
    (parser.parts, parser.stopped, parser.guardState)

/-- `parse_guarded`, with the final state of the guard. -/
def parseGuarded (guard : Guard σ) (guardState : σ) : Option (Option ParseParts × σ) :=
  (parseGuardedPrefix source guard guardState).map fun (parts, stopped, guardState) =>
    (if stopped then none else some parts, guardState)

end

/-- `parse`: no guard. -/
def parse (source : List Char) : Option ParseParts :=
  (parseDocument none source (Parser.new ())).map fun (_, parser) => parser.parts

end ParadoxCode.Script
