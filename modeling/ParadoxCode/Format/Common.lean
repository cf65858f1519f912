import ParadoxCode.Parser.File
import ParadoxCode.Parser.Node
import ParadoxCode.Parser.QuotedScript

/-!
# Results of the formatter

`common.rs`, and what the formatter is given: a parsed file with the tree read out of its arena.
-/

namespace ParadoxCode.Format

open ParadoxCode.Parser

/-- A parsed file and its root. -/
structure Document where
  file : ParsedFile
  root : CstNode

/-- The file with its root, where the arena has one. -/
def document (file : ParsedFile) : Option Document := file.root.map fun root => ⟨file, root⟩

/-- `parse`. -/
def parseDocument (format : FileFormat) (source : Str) : Option Document :=
  (parse format source).bind document

/-- `parse_quoted_script`, less the source map. The parser has a result for every payload; one whose
tree cannot be read counts as none. -/
def parseQuotedScript (source : Str) : Option Document :=
  (decodeQuotedScript source).bind fun decoded => parseDocument .script decoded.1

namespace Document

/-- The text of a range. -/
def text (doc : Document) (range : TextRange) : Option Str := doc.file.text range

/-- `self.text(node)`: the text of a node, empty where its range is not one of the source. -/
def nodeText (doc : Document) (node : CstNode) : Str := (doc.text node.range).getD []

end Document

/-- Why formatting did not produce edits. -/
inductive FormatSkipReason where
  | unsafeSyntax
  | safetyValidationFailed
  deriving DecidableEq

/-- A single source edit. -/
structure TextEdit where
  range : TextRange
  replacement : Str
  deriving DecidableEq

/-- Formatter result that can safely contain no edits. -/
structure FormatResult where
  edits : List TextEdit
  skipped : Option FormatSkipReason
  deriving DecidableEq

def skipped (reason : FormatSkipReason) : FormatResult := ⟨[], some reason⟩

def indent (depth : Nat) : Str := List.replicate depth '\t'

def containsLineBreak (text : Str) : Bool := text.any fun c => c == '\r' || c == '\n'

def lineWidth : Nat := 120

def tabWidth : Nat := 4

section

/- `UnicodeWidthChar::width` of the crate `unicode_width`. -/
variable (width : Char → Option Nat)

def displayWidth (text : Str) : Nat :=
  text.foldl (fun column character =>
    if character = '\t' then column + (tabWidth - column % tabWidth)
    else column + (width character).getD 0) 0

def fitsLine (line : Str) : Bool := !containsLineBreak line && displayWidth width line ≤ lineWidth

end

/-- `lines.join(separator)`. -/
def join (separator : Str) (lines : List Str) : Str := List.intercalate separator lines

end ParadoxCode.Format
