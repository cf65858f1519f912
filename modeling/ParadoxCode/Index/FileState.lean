import ParadoxCode.Parser.File
import ParadoxCode.Parser.Node
import ParadoxCode.Rules.FileCategory
import ParadoxCode.Transcode.Escape

/-!
# What indexing keeps of a file

The editor positions of ranges, the localisation previews, and the entries of one file in the maps
of both: `index.rs` and `documents.rs` of the index crate, with the previews of `model.rs` in the
vfs crate and the line index of the text crate.
-/

namespace ParadoxCode.Index

open ParadoxCode.Parser Rules

/-! ## Editor positions -/

structure Position where
  line : Nat
  character : Nat
  deriving DecidableEq

structure PositionRange where
  start : Position
  stop : Position
  deriving DecidableEq

/-- `LineIndex`: the offsets behind the line breaks. -/
structure LineIndex where
  lineStarts : List Nat
  textLen : Nat
  deriving DecidableEq

namespace LineIndex

/-- `LineIndex::new`. -/
def new (text : Str) : LineIndex where
  lineStarts := 0 :: ((Utf8.encode text).zipIdx.filterMap fun (byte, offset) =>
    if byte == 0x0A then tryU32 (offset + 1) else none)
  textLen := (tryU32 (byteLen text)).getD u32Max

/-- `char::len_utf16`. -/
def lenUtf16 (c : Char) : Nat := if c.toNat < 0x10000 then 1 else 2

/-- `LineIndex::position`. -/
def position (index : LineIndex) (text : Str) (offset : Nat) : Option Position :=
  if index.textLen < offset then none
  else do
    let line := (index.lineStarts.takeWhile (· ≤ offset)).length - 1
    let start ← index.lineStarts[line]?
    let slice ← getText text start offset
    let character ← tryU32 (slice.map lenUtf16).sum
    let line ← tryU32 line
    some ⟨line, character⟩

end LineIndex

/-! ## Localisation entries and their previews -/

structure LocalisationPreview where
  language : Option Str
  value : Str
  deriving DecidableEq

def maxLocalisationPreviewChars : Nat := 1000

/-- The first characters of a value. -/
def truncatePreview (value : Str) : Str :=
  value.take maxLocalisationPreviewChars ++
    if maxLocalisationPreviewChars < value.length then ['…'] else []

/-- The text of a header, where it is not blank. -/
def headerLanguage (parsed : ParsedFile) (node : CstNode) : Option Str := do
  let child ← childOfKind node .localisationKey
  let value ← parsed.text child.range
  if (trim value).isEmpty then none else some (trim value)

/-- The value of an entry, as `decode` shows it. -/
def entryValue (decode : Str → Str) (parsed : ParsedFile) (node : CstNode) : Option Str := do
  let valueNode ← node.children.find? fun child =>
    child.kind == .localisationString || child.kind == .unquotedValue
  let raw ← parsed.text valueNode.range
  let value := truncatePreview (decode (unquote (trim raw)))
  if value.isEmpty then none else some value

/-- The previews of the children of a root, under the language of the last header. -/
def previewsOf (decode : Str → Str) (parsed : ParsedFile) :
    Option Str → List CstNode → List (TextRange × LocalisationPreview)
  | _, [] => []
  | language, node :: nodes =>
    if node.kind = .languageHeader then
      previewsOf decode parsed (headerLanguage parsed node) nodes
    else
      let preview :=
        if node.kind = .localisationEntry then
          (entryValue decode parsed node).map fun value => (node.range, ⟨language, value⟩)
        else none
      preview.toList ++ previewsOf decode parsed language nodes

/-- `decode_value`. -/
def decodeValue (value : Str) : Str :=
  if value.any fun c => Transcode.isMarkerCodePoint c.toNat then (Transcode.decodeText value).text
  else value

/-- `localisation_previews_from_parsed`. -/
def localisationPreviewsFromParsed (parsed : ParsedFile) :
    Option (List (TextRange × LocalisationPreview)) :=
  if parsed.format = .localisation then
    parsed.root.map fun root => previewsOf decodeValue parsed none root.children
  else some []

/-! ## Shards -/

structure FlagWrite where
  kind : Str
  name : Str
  range : TextRange
  deriving DecidableEq

/-! ## Entries of one file in the maps -/

/-- Inserts an entry behind the ranges that are not greater; a later entry replaces an equal
range. -/
def insertEntry {α : Type} (entry : TextRange × α) : List (TextRange × α) → List (TextRange × α)
  | [] => [entry]
  | other :: entries =>
    if other.1 = entry.1 then entry :: entries
    else if other.1.start < entry.1.start ∨
        other.1.start = entry.1.start ∧ other.1.stop < entry.1.stop then
      other :: insertEntry entry entries
    else entry :: other :: entries

/-- `sort_position_entries`, `sort_preview_entries`: in range order, the last one of equal
ranges. -/
def sortEntries {α : Type} (entries : List (TextRange × α)) : List (TextRange × α) :=
  entries.foldl (fun sorted entry => insertEntry entry sorted) []

end ParadoxCode.Index
