import ParadoxCode.Text

/-!
# Asset paths

`paths.rs`: the spelling of asset paths.
-/

namespace ParadoxCode.Format

/-- File extensions whose scalar values the formatter treats as asset paths. -/
def assetExtensions : List Str :=
  ["dds".toList, "tga".toList, "png".toList, "jpg".toList, "jpeg".toList, "bmp".toList,
    "mesh".toList, "anim".toList, "ttf".toList, "wav".toList, "ogg".toList]

/-- `str::eq_ignore_ascii_case`. -/
def eqIgnoreAsciiCase (left right : Str) : Bool :=
  left.map Char.toLower == right.map Char.toLower

/-- The text behind the last dot: `inner.rsplit_once('.')`. -/
def extension? (inner : Str) : Option Str :=
  if '.' ∈ inner then some (inner.reverse.takeWhile (· != '.')).reverse else none

/-- Whether a scalar token's spelling denotes an asset path the formatter may rewrite. -/
def isAssetPathSpelling (tokenText : Str) : Bool :=
  let inner := unquote tokenText
  if inner.isEmpty || inner.any fun c => isWhitespace c || c == '"' || c == '\'' then false
  else
    match extension? inner with
    | some extension => assetExtensions.any fun known => eqIgnoreAsciiCase known extension
    | none => false

def isSeparator (c : Char) : Bool := c == '/' || c == '\\'

/-- Every maximal run of separators as one `/`; the flag says that the last character was one. -/
def collapseSeparators : Bool → Str → Str
  | _, [] => []
  | inRun, c :: rest =>
    if isSeparator c then
      if inRun then collapseSeparators true rest else '/' :: collapseSeparators true rest
    else c :: collapseSeparators false rest

def normalizeAssetPathSeparators (tokenText : Str) : Str :=
  if tokenText.any isSeparator then collapseSeparators false tokenText else tokenText

/-- Whether rewriting `before` to `after` is exactly the asset-path separator canonicalization. -/
def isAssetPathNormalization (before after : Str) : Bool :=
  before != after && isAssetPathSpelling before && normalizeAssetPathSeparators before == after

end ParadoxCode.Format
