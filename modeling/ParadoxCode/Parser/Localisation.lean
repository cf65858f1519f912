import ParadoxCode.Parser.Cst

/-!
# The localisation parser

`localisation.rs`. A slice of the source is its bytes, and slicing off a character boundary has no
result. The line that `parse_line` gets is the slice from `start` to `lineEnd`; its own slices are
slices of the source.
-/

namespace ParadoxCode.Localisation

open ParadoxCode.Parser

/-- `Parser`, less the source, which is a parameter. -/
structure Parser where
  tokens : List SyntaxToken
  errors : List SyntaxError
  tree : SyntaxTreeBuilder

/-- `Parser::new`. -/
def Parser.new : Parser := ⟨[], [], .empty⟩

abbrev ParseM := Run Parser

/-- A byte of a localisation key: `A-Z a-z 0-9 _ $ . -`. -/
def isKeyByte (byte : UInt8) : Bool :=
  (0x41 ≤ byte && byte ≤ 0x5A) || (0x61 ≤ byte && byte ≤ 0x7A) || (0x30 ≤ byte && byte ≤ 0x39) ||
    byte == 0x5F || byte == 0x24 || byte == 0x2E || byte == 0x2D

/-- `u8::is_ascii_digit`. -/
def isAsciiDigit (byte : UInt8) : Bool := 0x30 ≤ byte && byte ≤ 0x39

/-- A blank or a tab, which may stand around the content of a line. -/
def isBlank (byte : UInt8) : Bool := byte == 0x20 || byte == 0x09

/-- The bytes of U+FEFF. -/
def bom : List UInt8 := [0xEF, 0xBB, 0xBF]

/-! ## Primitives -/

def node (kind : CstKind) (start stop childCount : Nat) : ParseM Nat := fun parser =>
  (parser.tree.node kind (range start stop) childCount).map fun (index, tree) =>
    (index, { parser with tree })

def push (index : Nat) : ParseM Unit :=
  Run.modify fun parser => { parser with tree := parser.tree.pushChild index }

def childrenMark : ParseM Nat := Run.read fun parser => parser.tree.children.length

def childrenSince (mark : Nat) : ParseM Nat := fun parser =>
  (parser.tree.childrenSince mark).map fun count => (count, parser)

def pushToken (kind : TokenKind) (start stop : Nat) : ParseM Unit :=
  Run.modify fun parser => { parser with tokens := parser.tokens ++ [⟨kind, range start stop⟩] }

def error (kind : SyntaxErrorKind) (start stop : Nat) (message : String) : ParseM Unit :=
  Run.modify fun parser =>
    { parser with errors := parser.errors ++ [⟨kind, range start stop, message⟩] }

section

variable (source : List Char)

/-- `&self.source[start..stop]`. -/
def slice (start stop : Nat) : ParseM (List UInt8) :=
  if start ≤ stop ∧ isCharBoundary source start ∧ isCharBoundary source stop then
    pure (sliceBytes source start stop)
  else Run.fail

/-- `self.source[position..].chars().next().map_or(1, char::len_utf8)`. -/
def nextLength (position : Nat) : ParseM Nat :=
  if isCharBoundary source position then
    match Utf8.decodeFirst (bytesAt source position) with
    | .char character _ => pure character.utf8Size
    | _ => pure 1
  else Run.fail

/-- A token and a leaf for a comment up to the end of the line. -/
def comment (start lineEnd : Nat) : ParseM Nat := do
  pushToken .comment start lineEnd
  node .comment start lineEnd 0

/-! ## Values -/

/-- `inline_comment`. -/
def inlineComment (start lineEnd : Nat) : ParseM (Option Nat) := do
  let text ← slice source start lineEnd
  match text.findIdx? (· == 0x23) with
  | none => pure none
  | some relative => do
    let index ← comment (start + relative) lineEnd
    pure (some index)

/-- The loop of `parse_quoted`: the end of the string and whether it is closed. -/
def quotedLoop (lineEnd : Nat) : Nat → Nat → ParseM (Nat × Bool)
  | 0, _ => Run.fail
  | fuel + 1, position =>
    if position < lineEnd then
      match (Utf8.encode source)[position]? with
      | none => Run.fail
      | some byte =>
        if byte = 0x22 then pure (position + 1, true)
        else if byte = 0x5C then
          if position + 1 < lineEnd then do
            let length ← nextLength source (position + 1)
            quotedLoop lineEnd fuel (position + 1 + length)
          else quotedLoop lineEnd fuel (position + 1)
        else do
          let length ← nextLength source position
          quotedLoop lineEnd fuel (position + length)
    else pure (position, false)

/-- The report on a string that is not closed. -/
def reportUnclosed (closed : Bool) (start lineEnd : Nat) : ParseM Unit :=
  if closed then pure ()
  else error .unterminatedLocalisationString start lineEnd "localisation string is missing `\""

def parseQuoted (start lineEnd : Nat) : ParseM (Nat × Option Nat) := do
  let (stop, closed) ← quotedLoop source lineEnd (lineEnd + 1) (start + 1)
  pushToken .quoted start stop
  reportUnclosed closed start lineEnd
  let comment ← if closed then inlineComment source stop lineEnd else pure none
  let value ← node .localisationString start stop 0
  pure (value, comment)

/-- `while end > start && bytes[end - 1].is_ascii_whitespace() { end -= 1; }` -/
def trimEnd (start : Nat) : Nat → Nat
  | 0 => 0
  | stop + 1 =>
    if start < stop + 1 ∧ ((Utf8.encode source)[stop]?.any isAsciiWhitespace) then
      trimEnd start stop
    else stop + 1

def parseUnquoted (start lineEnd : Nat) : ParseM (Nat × Option Nat) := do
  let text ← slice source start lineEnd
  match text.findIdx? (· == 0x23) with
  | none => do
    let stop := trimEnd source start lineEnd
    pushToken .bare start stop
    let value ← node .unquotedValue start stop 0
    pure (value, none)
  | some relative => do
    let stop := trimEnd source start (start + relative)
    let comment ← comment (start + relative) lineEnd
    let stop := trimEnd source start stop
    pushToken .bare start stop
    let value ← node .unquotedValue start stop 0
    pure (value, some comment)

/-! ## Lines -/

/-- The position behind the bytes at `position` for which `continues` holds. -/
def skip (continues : UInt8 → Bool) (line : List UInt8) (position : Nat) : Nat :=
  position + ((line.drop position).takeWhile continues).length

/-- The optional version behind the colon. -/
def parseVersion (start : Nat) (line : List UInt8) (position : Nat) : ParseM Nat :=
  if (line)[position]?.any isAsciiDigit then do
    let versionStart := position
    let position := skip isAsciiDigit line position
    pushToken .bare (start + versionStart) (start + position)
    let version ← node .version (start + versionStart) (start + position) 0
    push version
    pure (skip isAsciiWhitespace line position)
  else pure position

/-- Queues a node where there is one. -/
def pushSome (index : Option Nat) : ParseM Unit :=
  match index with
  | some index => push index
  | none => pure ()

/-- The comment in the place of a value. -/
def missingComment (start lineEnd : Nat) (line : List UInt8) (position : Nat) : ParseM Unit :=
  if (line)[position]? = some 0x23 then do
    let index ← comment (start + position) lineEnd
    push index
  else pure ()

/-- The value of an entry, and the node around the entry. -/
def parseEntry (mark start lineEnd : Nat) (line : List UInt8) (position : Nat) : ParseM Nat := do
  if line.length ≤ position ∨ (line)[position]? = some 0x23 then do
    error .invalidLocalisationEntry lineEnd lineEnd "localisation entry is missing a value"
    missingComment start lineEnd line position
    let recovery ← node .error lineEnd lineEnd 0
    push recovery
    let children ← childrenSince mark
    node .localisationEntry start lineEnd children
  else do
    let valueStart := start + position
    let (value, comment) ←
      if (line)[position]? = some 0x22 then parseQuoted source valueStart lineEnd
      else parseUnquoted source valueStart lineEnd
    push value
    pushSome comment
    let children ← childrenSince mark
    node .localisationEntry start lineEnd children

/-- Whether the key starts with `l_` and only blanks follow the colon. -/
def isLanguageHeader (start lineEnd keyLen position : Nat) : ParseM Bool := do
  let key ← slice source start (start + keyLen)
  if key.take 2 = [0x6C, 0x5F] then do
    let rest ← slice source (start + position) lineEnd
    pure (rest.all isBlank)
  else pure false

/-- `parse_line`, which always returns a node. -/
def parseLine (start lineEnd : Nat) (line : List UInt8) : ParseM Nat := do
  let mark ← childrenMark
  let keyLen := (line.takeWhile isKeyByte).length
  if keyLen = 0 then do
    error .invalidLocalisationEntry start lineEnd "localisation line is missing a key"
    node .error start lineEnd 0
  else do
    let keyEnd := start + keyLen
    pushToken .bare start keyEnd
    let key ← node .localisationKey start keyEnd 0
    push key
    let position := skip isAsciiWhitespace line keyLen
    if (line)[position]? = some 0x3A then do
      let colonStart := start + position
      let position := position + 1
      let header ← isLanguageHeader source start lineEnd keyLen position
      pushToken .colon colonStart (colonStart + 1)
      if header then do
        let children ← childrenSince mark
        node .languageHeader start lineEnd children
      else do
        let position := skip isAsciiWhitespace line position
        let position ← parseVersion start line position
        parseEntry source mark start lineEnd line position
    else parseEntry source mark start lineEnd line position

/-- The end of the line that starts at `lineStart`: its line feed, or the end of the source. -/
def findLineEnd (lineStart : Nat) : Nat :=
  match (bytesAt source lineStart).findIdx? (· == 0x0A) with
  | some offset => lineStart + offset
  | none => byteLen source

/-- The end of the line without its carriage return. -/
def contentEnd (lineStart lineEnd : Nat) : Nat :=
  if lineStart < lineEnd ∧ (Utf8.encode source)[lineEnd - 1]? = some 0x0D then lineEnd - 1
  else lineEnd

/-- The byte order mark of the first line. -/
def parseBom (present : Bool) (lineStart : Nat) : ParseM Unit :=
  if present then do
    pushToken .bom lineStart (lineStart + 3)
    let index ← node .bom lineStart (lineStart + 3) 0
    push index
  else pure ()

/-- The content of a line, behind its leading blanks. -/
def parseContent (start lineEnd : Nat) (trimmed : List UInt8) : ParseM Unit :=
  if trimmed.isEmpty then pure ()
  else if trimmed.head? = some 0x23 then do
    let index ← comment start lineEnd
    push index
  else do
    let index ← parseLine source start lineEnd trimmed
    push index

/-- The loop of `parse_lines`. -/
def parseLines : Nat → Nat → Bool → ParseM Unit
  | 0, _, _ => Run.fail
  | fuel + 1, lineStart, firstLine =>
    if lineStart ≤ byteLen source then do
      let lineEnd := findLineEnd source lineStart
      let contentEnd := contentEnd source lineStart lineEnd
      let line ← slice source lineStart contentEnd
      let marked := firstLine && line.take 3 == bom
      parseBom marked lineStart
      let offset := if marked then 3 else 0
      let content ← slice source (lineStart + offset) contentEnd
      let leading := (content.takeWhile isBlank).length
      parseContent source (lineStart + offset + leading) contentEnd (content.drop leading)
      if lineEnd = byteLen source then pure ()
      else parseLines fuel (lineEnd + 1) false
    else pure ()

def parseDocument : ParseM Unit := do
  let mark ← childrenMark
  parseLines source (byteLen source + 2) 0 true
  let children ← childrenSince mark
  let _ ← node .localisationDocument 0 (byteLen source) children
  pure ()

end

def Parser.parts (parser : Parser) : ParseParts :=
  ⟨parser.tree.finish, parser.tokens, parser.errors⟩

/-- `parse`. -/
def parse (source : List Char) : Option ParseParts :=
  (parseDocument source Parser.new).map fun (_, parser) => parser.parts

end ParadoxCode.Localisation
