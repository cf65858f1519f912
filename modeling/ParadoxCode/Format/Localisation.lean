import ParadoxCode.Format.Common

/-!
# Formatting localisation

`format/localisation.rs`.
-/

namespace ParadoxCode.Format

open ParadoxCode.Parser

/-- U+FEFF. -/
def bomChar : Char := Char.ofNat 0xFEFF

/-- `TextRange::new(start, end).unwrap_or_else(|| TextRange::empty(otherwise))`. -/
def rangeOr (start stop otherwise : Nat) : TextRange :=
  (TextRange.new start stop).getD (.empty otherwise)

/-- The node of the value of an entry. -/
def valueNode (node : CstNode) : Option CstNode :=
  node.children.find? fun child => child.kind == .localisationString || child.kind == .unquotedValue

section

variable (doc : Document)

/-- Whether a colon stands between the key and the value. -/
def hasColon (node value : CstNode) : Bool :=
  let start := match childOfKind node .localisationKey with
    | some key => key.range.stop
    | none => node.range.start
  let range := rangeOr start value.range.start value.range.start
  (doc.text range).any fun text => text.contains ':'

def formatLocalisationEntry (node : CstNode) : Str :=
  let key := ((childOfKind node .localisationKey).bind fun child => doc.text child.range).getD []
  let version := (childOfKind node .version).bind fun child => doc.text child.range
  let value := ((valueNode node).bind fun child => doc.text child.range).getD []
  let line :=
    if (valueNode node).any fun value => hasColon doc node value then
      key ++ ':' :: version.getD [] ++ ' ' :: value
    else key ++ ' ' :: value
  match childOfKind node .comment with
  | some comment => line ++ ' ' :: doc.nodeText comment
  | none => line

/-- The lines of one node of the document. -/
def localisationLines (node : CstNode) : List Str :=
  match node.kind with
  | .comment => [doc.nodeText node]
  | .languageHeader =>
    match node.children.head?.bind fun child => doc.text child.range with
    | some key => [key ++ [':']]
    | none => []
  | .localisationEntry => [formatLocalisationEntry doc node]
  | _ => []

/-- The byte order mark in front of the first line. -/
def insertBom (lines : List Str) : List Str :=
  match lines with
  | first :: rest => (bomChar :: first) :: rest
  | [] => [[bomChar]]

/-- `lines.join("\n")` and a final line break, for at least one line. -/
def joinLines (lines : List Str) : Str := if lines.isEmpty then [] else join ['\n'] lines ++ ['\n']

def formatLocalisation : Str :=
  let lines := doc.root.children.flatMap (localisationLines doc)
  let bom := doc.root.children.any fun node => node.kind == .bom
  joinLines (if bom then insertBom lines else lines)

end

end ParadoxCode.Format
