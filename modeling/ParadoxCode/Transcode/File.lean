import ParadoxCode.Transcode.Escape

/-!
# Whole-file conversion

`file.rs`. A slice is the list of its bytes. Where the source keeps an index into the input, the
model keeps the index together with the suffix of the input that starts there, and `escape_at` and
`payload_character` return how many bytes they read. The loops consume a byte per round, so the
length of their input is fuel enough (`convertFrom_eq_ok_iff`, `decodeRun_eq`,
`encodeRun_eq_ok_iff`).
-/

namespace ParadoxCode.Transcode

/-- A whole-file conversion that cannot safely transform the input. -/
inductive FileConversionError where
  | invalidUtf8
  | brokenEscape (byteIndex : Nat)
  | unencodable (error : EncodeError)
  deriving DecidableEq

inductive Direction where
  | encode (set : EscapeSet)
  | decode
  deriving DecidableEq

/-- How many bytes a character with this first byte has. -/
def payloadWidth (first : UInt8) : Option Nat :=
  if first.toNat ≤ 0x7F then some 1
  else if 0xC2 ≤ first.toNat ∧ first.toNat ≤ 0xDF then some 2
  else if 0xE0 ≤ first.toNat ∧ first.toNat ≤ 0xEF then some 3
  else if 0xF0 ≤ first.toNat ∧ first.toNat ≤ 0xF4 then some 4
  else none

/-- The payload byte that the UTF-8 character at the front spells, with the character's width. -/
def payloadCharacter (input : List UInt8) : Option (Nat × UInt8) :=
  match input with
  | [] => none
  | first :: _ =>
    match payloadWidth first with
    | none => none
    | some width =>
      if input.length < width then none
      else
        match Utf8.fromUtf8 (input.take width) with
        | .error _ => none
        | .ok [] => none
        | .ok (character :: _) =>
          if character.toNat < 0x100 then some (width, UInt8.ofNat character.toNat)
          else (mappedByte character.toNat).map fun byte => (width, byte)

/-- The two payload bytes behind a marker, with the width of marker and payload. -/
def payload (profile : Profile) (input : List UInt8) : Option (Nat × UInt8 × UInt8) :=
  match profile with
  | .script =>
    match input with
    | _ :: low :: high :: _ => some (3, low, high)
    | _ => none
  | .localisation =>
    match payloadCharacter (input.drop 1) with
    | none => none
    | some (lowWidth, low) =>
      match payloadCharacter (input.drop (1 + lowWidth)) with
      | none => none
      | some (highWidth, high) => some (1 + lowWidth + highWidth, low, high)

/-- The triple at a marker: its width and the character it denotes. `input` starts at the marker,
which stands at offset `start` of the file. -/
def escapeAt (input : List UInt8) (start : Nat) (profile : Profile) :
    Except FileConversionError (Nat × Char) :=
  let broken := .error (.brokenEscape start)
  match input, payload profile input with
  | marker :: _, some (width, low, high) =>
    let compensatedDelimiter :=
      (marker = 0x11 ∨ marker = 0x13) ∧ (low = 0x3D ∨ low = 0x2F)
    if (EscapeSet.paratranz.contains low = true ∧ ¬ compensatedDelimiter) ∨
        EscapeSet.paratranz.contains high = true then broken
    else
      let codePoint := reconstruct marker.toNat low high
      if ¬ (0x1000 ≤ codePoint ∧ codePoint ≤ 0xFFFF) then broken
      else
        match charFromU32 codePoint with
        | some character => .ok (width, character)
        | none => broken
  | _, _ => broken

/-- The UTF-8 bytes of the CP1252 reading of stray bytes. -/
def legacyBytes (bytes : List UInt8) : List UInt8 := Utf8.encode (bytes.map byteChar)

/-- The bytes `decode_run` appends for a marker-free run. -/
def decodeRun : Nat → List UInt8 → List UInt8
  | 0, _ => []
  | fuel + 1, input =>
    if input.isEmpty then []
    else
      match Utf8.fromUtf8 input with
      | .ok _ => input
      | .error error =>
        let width := error.errorLen.getD (input.length - error.validUpTo)
        input.take error.validUpTo ++ legacyBytes ((input.drop error.validUpTo).take width) ++
          decodeRun fuel (input.drop (error.validUpTo + width))

/-- The bytes `encode_run` appends for a marker-free run at offset `base`. -/
def encodeRun (profile : Profile) (set : EscapeSet) :
    Nat → List UInt8 → Nat → Except FileConversionError (List UInt8)
  | 0, _, _ => .ok []
  | fuel + 1, input, base =>
    if input.isEmpty then .ok []
    else
      let split : Except FileConversionError (List Char × Nat) :=
        match Utf8.fromUtf8 input with
        | .ok text => .ok (text, 0)
        | .error error =>
          if profile = .script then
            match Utf8.fromUtf8 (input.take error.validUpTo) with
            | .ok text => .ok (text, error.errorLen.getD (input.length - error.validUpTo))
            | .error _ => .error .invalidUtf8
          else .error .invalidUtf8
      match split with
      | .error error => .error error
      | .ok (readable, legacy) =>
        match encodeFile readable profile set with
        | .error error => .error (.unencodable ⟨error.unencodable.map fun point =>
            { point with byteIndex := point.byteIndex + base }⟩)
        | .ok encoded =>
          let readableLen := (Utf8.encode readable).length
          let consumed := readableLen + legacy
          match encodeRun profile set fuel (input.drop consumed) (base + consumed) with
          | .error error => .error error
          | .ok rest => .ok (encoded ++ (input.take consumed).drop readableLen ++ rest)

/-- The output for the marker-free run at offset `index`. -/
def convertRun (profile : Profile) (direction : Direction) (run : List UInt8) (index : Nat) :
    Except FileConversionError (List UInt8) :=
  match direction with
  | .encode set => encodeRun profile set run.length run index
  | .decode => .ok (decodeRun run.length run)

/-- The loop of `convert`: the output for the suffix `input` at offset `index`. -/
def convertFrom (profile : Profile) (direction : Direction) :
    Nat → List UInt8 → Nat → Except FileConversionError (List UInt8)
  | 0, _, _ => .ok []
  | _ + 1, [], _ => .ok []
  | fuel + 1, byte :: tail, index =>
    let input := byte :: tail
    if isMarkerByte byte then
      match escapeAt input index profile with
      | .error error => .error error
      | .ok (width, character) =>
        let piece :=
          match direction with
          | .encode _ => input.take width
          | .decode => Utf8.encode [character]
        match convertFrom profile direction fuel (input.drop width) (index + width) with
        | .error error => .error error
        | .ok output => .ok (piece ++ output)
    else
      let run := input.takeWhile fun byte => !isMarkerByte byte
      match convertRun profile direction run index with
      | .error error => .error error
      | .ok piece =>
        match convertFrom profile direction fuel (input.drop run.length) (index + run.length) with
        | .error error => .error error
        | .ok output => .ok (piece ++ output)

def convert (input : List UInt8) (profile : Profile) (direction : Direction) :
    Except FileConversionError (List UInt8) :=
  match profile, Utf8.fromUtf8 input with
  | .localisation, .error _ => .error .invalidUtf8
  | _, _ => convertFrom profile direction input.length input 0

/-- Encodes every readable run of a file and preserves the triples it already holds. -/
def encodeBuffer (input : List UInt8) (profile : Profile) (set : EscapeSet) :
    Except FileConversionError (List UInt8) := convert input profile (.encode set)

/-- Decodes every triple of a file and preserves its readable runs. -/
def decodeBuffer (input : List UInt8) (profile : Profile) :
    Except FileConversionError (List UInt8) := convert input profile .decode

end ParadoxCode.Transcode
