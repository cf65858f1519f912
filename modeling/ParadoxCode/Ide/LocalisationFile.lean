import ParadoxCode.Index.FileState

/-!
# The values of a localisation file

`collect_localisations` of `search.rs`: the record of one entry of a parsed localisation file, with
its readable value.
-/

namespace ParadoxCode.Ide.LocalisationSearch

open ParadoxCode.Parser
open ParadoxCode.Index (decodeValue)

/-! ## Readable values -/

/-- `readable_localisation`. -/
def readableLocalisation : Str → Str
  | [] => []
  | [character] => [character]
  | character :: next :: rest =>
    if character = '§' ∧ (next.isAlphanum ∨ next = '!') then readableLocalisation rest
    else if character = '\\' ∧ next = 'n' then '\n' :: readableLocalisation rest
    else character :: readableLocalisation (next :: rest)

/-- `unreliable_encoded_text`. -/
def unreliableEncodedText (source : Str) : Bool :=
  source.contains (Char.ofNat 0xFFFD) && source.any fun character =>
    Transcode.isMarkerCodePoint character.toNat

/-- `recover_unreliable_text`. -/
def recoverUnreliableText : Str → Str
  | [] => []
  | character :: rest =>
    if Transcode.isMarkerCodePoint character.toNat then
      match rest with
      | [] | [_] => [Char.ofNat 0xFFFC]
      | _ :: _ :: rest => Char.ofNat 0xFFFC :: recoverUnreliableText rest
    else character :: recoverUnreliableText rest

/-- `\n` stands in the text as two characters. -/
def containsLineBreak : Str → Bool
  | '\\' :: 'n' :: _ => true
  | _ :: rest => containsLineBreak rest
  | [] => false

/-! ## Entries -/

structure LocalisationValue where
  keyRange : TextRange
  valueRange : TextRange
  readableRange : TextRange
  foldedKey : Option Str
  readable : Option Str
  language : Str
  fullValueAvailable : Bool
  deriving DecidableEq

/-- `ParsedInput::source_text`, empty where there is none. -/
def sourceText (source : Str) (range : TextRange) : Str :=
  (getText source range.start range.stop).getD []

/-- A value without the quotes around it. -/
def unquotedValue (raw : Str) : Str :=
  let front := if raw.head? = some '"' then raw.drop 1 else raw
  if front.getLast? = some '"' then front.dropLast else front

/-- The record of an entry whose key and value have been found. -/
def entryValue (source language : Str) (key value : TextRange) : LocalisationValue :=
  let raw := sourceText source value
  let unquoted := unquotedValue raw
  let start := value.start + if raw.head? = some '"' then 1 else 0
  let unreliable := unreliableEncodedText unquoted
  let transformed := unreliable || unquoted.contains '§' || containsLineBreak unquoted ||
    unquoted.any fun character => Transcode.isMarkerCodePoint character.toNat
  let spelling := sourceText source key
  { keyRange := key
    valueRange := value
    readableRange := (TextRange.new start (start + asU32 (byteLen unquoted))).getD value
    foldedKey := if spelling.any Char.isUpper then some (toAsciiLowercase spelling) else none
    readable :=
      if transformed then
        (some (readableLocalisation
          (if unreliable then recoverUnreliableText unquoted else decodeValue unquoted))).filter
            (· ≠ unquoted)
      else none
    language := language
    fullValueAvailable := !unreliable }

end ParadoxCode.Ide.LocalisationSearch
