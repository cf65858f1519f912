import ParadoxCode.Format.Script

/-!
# Edits

`equivalence.rs` and `mod.rs`: the checks behind a formatted text, the edits that lead to it, and
the formatter.
-/

namespace ParadoxCode.Format

open ParadoxCode.Parser

/-! ## Equivalence -/

mutual

def sameTreeShape : CstNode → CstNode → Bool
  | .mk kind _ children, right =>
    kind == right.kind && children.length == right.children.length &&
      sameTreeShapes children right.children

/-- `left.zip(right).all(..)`. -/
def sameTreeShapes : List CstNode → List CstNode → Bool
  | left :: lefts, right :: rights => sameTreeShape left right && sameTreeShapes lefts rights
  | _, _ => true

end

/-- Whether a token may be written in another way: the fixed keyword spelling or the separators of
an asset path. -/
def isRewrite (before after : Str) : Bool :=
  canonicalKeyword before == after || isAssetPathNormalization before after

/-- `equivalent` with a number of quotations left. -/
def equivalent : Nat → Document → Document → Bool
  | left, original, formatted =>
    original.file.format == formatted.file.format && formatted.file.errors.isEmpty &&
      sameTreeShape original.root formatted.root &&
      original.file.tokens.length == formatted.file.tokens.length &&
      (original.file.tokens.zip formatted.file.tokens).all fun (before, after) =>
        before.kind == after.kind &&
          match original.text before.range, formatted.text after.range with
          | some beforeText, some afterText =>
            match left with
            | 0 => isRewrite beforeText afterText
            | left + 1 =>
              match if before.kind = .quoted then quotedScript beforeText else none with
              | some beforeScript =>
                (parseQuotedScript afterText).any fun afterScript =>
                  equivalent left beforeScript afterScript
              | none => isRewrite beforeText afterText
          | _, _ => false

/-! ## Minimal edits -/

/-- `text_range`. -/
def textRange (start stop : Nat) : Option TextRange := do
  let start ← tryU32 start
  let stop ← tryU32 stop
  TextRange.new start stop

def pushChangedRange (edits : List TextEdit) (source : Str) (start stop : Nat)
    (replacement : Str) : Option (List TextEdit) := do
  let text ← getText source start stop
  if text = replacement then some edits
  else do
    let range ← textRange start stop
    some (edits ++ [⟨range, replacement⟩])

/-- Lowers a count until the test holds for it, or to zero. -/
def lowerTo (ok : Nat → Bool) : Nat → Nat
  | 0 => 0
  | n + 1 => if ok (n + 1) then n + 1 else lowerTo ok n

/-- The number of leading bytes in common. -/
def commonPrefix (left right : List UInt8) : Nat :=
  ((left.zip right).takeWhile fun pair => pair.1 == pair.2).length

def pushMinimalTokenEdit (edits : List TextEdit) (before after : Str) (absoluteStart : Nat) :
    Option (List TextEdit) := do
  let beforeBytes := Utf8.encode before
  let afterBytes := Utf8.encode after
  let front := lowerTo (fun count => isCharBoundary before count && isCharBoundary after count)
    (commonPrefix beforeBytes afterBytes)
  let maxBack := min (byteLen before) (byteLen after) - front
  let back := lowerTo
    (fun count => isCharBoundary before (byteLen before - count) &&
      isCharBoundary after (byteLen after - count))
    (((beforeBytes.reverse.zip afterBytes.reverse).take maxBack).takeWhile
      fun pair => pair.1 == pair.2).length
  let range ← textRange (absoluteStart + front) (absoluteStart + (byteLen before - back))
  let replacement ← getText after front (byteLen after - back)
  some (edits ++ [⟨range, replacement⟩])

/-- Whether a token may change to another text outside of quoted scripts. -/
def mayChange (kind : TokenKind) (before after : Str) : Bool :=
  if kind = .quoted ∧ (quotedScript before).isSome then true
  else if kind = .quoted then isAssetPathNormalization before after
  else isRewrite before after

/-- The loop of `minimal_edits`, with the ends of the last tokens. -/
def tokenEdits (original formatted : Document) :
    List (SyntaxToken × SyntaxToken) → List TextEdit → Nat → Nat →
      Option (List TextEdit × Nat × Nat)
  | [], edits, beforeEnd, afterEnd => some (edits, beforeEnd, afterEnd)
  | (before, after) :: rest, edits, beforeEnd, afterEnd =>
    if before.kind ≠ after.kind then none
    else do
      let gap ← getText formatted.file.source afterEnd after.range.start
      let edits ← pushChangedRange edits original.file.source beforeEnd before.range.start gap
      let beforeText ← original.text before.range
      let afterText ← formatted.text after.range
      let edits ←
        if beforeText = afterText then some edits
        else if mayChange before.kind beforeText afterText then
          pushMinimalTokenEdit edits beforeText afterText before.range.start
        else none
      tokenEdits original formatted rest edits before.range.stop after.range.stop

def minimalEdits (original formatted : Document) : Option (List TextEdit) :=
  if original.file.tokens.length ≠ formatted.file.tokens.length then none
  else do
    let (edits, beforeEnd, afterEnd) ←
      tokenEdits original formatted (original.file.tokens.zip formatted.file.tokens) [] 0 0
    let tail ← getText formatted.file.source afterEnd (byteLen formatted.file.source)
    pushChangedRange edits original.file.source beforeEnd (byteLen original.file.source) tail

/-! ## The formatter -/

section

variable (width : Char → Option Nat)

def canonicalText (doc : Document) : Str :=
  match doc.file.format with
  | .script => formatScript width doc
  | .localisation => formatLocalisation doc

/-- `format` on a file with its tree; no result where the formatted text has no tree. -/
def formatDocument (doc : Document) : Option FormatResult :=
  if doc.file.errors ≠ [] then some (skipped .unsafeSyntax)
  else
    let formatted := canonicalText width doc
    if formatted = doc.file.source then some ⟨[], none⟩
    else
      (parseDocument doc.file.format formatted).map fun reparsed =>
        if reparsed.file.errors ≠ [] ∨ equivalent maxQuotedScriptDepth doc reparsed = false ∨
            canonicalText width reparsed ≠ formatted then
          skipped .safetyValidationFailed
        else
          match minimalEdits doc reparsed with
          | none => skipped .safetyValidationFailed
          | some edits => ⟨edits, none⟩

/-- `format` on the parse of a source. -/
def formatSource (format : FileFormat) (source : Str) : Option FormatResult :=
  (parseDocument format source).bind (formatDocument width)

end

/-- `text.replace_range(range, replacement)`, where the range is one of the text. -/
def replaceRange (text : Str) (edit : TextEdit) : Str :=
  match getText text 0 edit.range.start, getText text edit.range.start edit.range.stop,
      getText text edit.range.stop (byteLen text) with
  | some before, some _, some after => before ++ edit.replacement ++ after
  | _, _, _ => text

/-- `apply_format_edits`: applies the edits back-to-front. -/
def applyFormatEdits (source : Str) (edits : List TextEdit) : Str :=
  edits.reverse.foldl replaceRange source

end ParadoxCode.Format
