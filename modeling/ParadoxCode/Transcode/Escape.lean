import ParadoxCode.Transcode.Cp1252

/-!
# The escape triples and the text and file codecs

`lib.rs` and `escape.rs`. A text is the list of its scalar values (`&str`, `String`), a file is a
list of bytes, and code points and byte offsets are `Nat`s. The only `u32` operations that can leave
their range are the ones of `reconstruct`, which wrap.
-/

namespace ParadoxCode.Transcode

/-! ## Profiles, escape sets and refusals (`lib.rs`) -/

/-- The byte-level shape of escaped content. -/
inductive Profile where
  | localisation
  | script
  deriving DecidableEq

/-- The source byte values that trigger compensation in a triple. -/
inductive EscapeSet where
  | paratranz
  | dllFull
  deriving DecidableEq

def paratranzEscapeBytes : List UInt8 :=
  [0x00, 0x0A, 0x0D, 0x20, 0x22, 0x23, 0x24, 0x2F, 0x3B, 0x3D, 0x40, 0x5B, 0x5C, 0x5D, 0x5F, 0x7B,
    0x7D, 0x7E, 0x80, 0xA3, 0xA4, 0xA7, 0xBD]

def dllFullEscapeBytes : List UInt8 :=
  [0x00, 0x0A, 0x0D, 0x20, 0x22, 0x23, 0x24, 0x2F, 0x3B, 0x3D, 0x40, 0x5B, 0x5C, 0x5D, 0x5F, 0x7B,
    0x7D, 0x7E, 0x80, 0xA3, 0xA4, 0xA7, 0xBD, 0x3A, 0x3C, 0x3E, 0x3F, 0x7C, 0x2A]

def EscapeSet.bytes : EscapeSet → List UInt8
  | .paratranz => paratranzEscapeBytes
  | .dllFull => dllFullEscapeBytes

def EscapeSet.contains (set : EscapeSet) (byte : UInt8) : Bool := set.bytes.contains byte

/-- Why encoding refuses a code point. -/
inductive UnencodableKind where
  | mangledLowPlane
  | beyondBmp
  deriving DecidableEq

/-- A code point that encoding refuses, with its byte offset in the readable text. -/
structure UnencodableCodePoint where
  byteIndex : Nat
  codePoint : Nat
  kind : UnencodableKind
  deriving DecidableEq

/-- Every refused code point, in input order. -/
structure EncodeError where
  unencodable : List UnencodableCodePoint
  deriving DecidableEq

/-! ## Triples -/

/-- Latin-1 and the BOM never take the triple path. -/
def isPassthrough (codePoint : Nat) : Bool := codePoint < 0x100 || codePoint == 0xFEFF

/-- Whether encoding must refuse a code point, and why. -/
def unencodableKind (codePoint : Nat) : Option UnencodableKind :=
  if codePoint < 0x100 || codePoint == 0xFEFF then none
  else if codePoint ≤ 0xFFF then some .mangledLowPlane
  else if codePoint ≥ 0x10000 then some .beyondBmp
  else none

/-- `unencodableKind` for a profile: scripts keep the mapped CP1252 characters as single bytes. -/
def fileUnencodableKind (codePoint : Nat) (profile : Profile) : Option UnencodableKind :=
  if profile == .script && (mappedByte codePoint).isSome then none else unencodableKind codePoint

/-- Splits a four-digit code point into marker, low byte and high byte; a byte of the escape set is
compensated and its position marked. -/
def escapeTriple (codePoint : Nat) (set : EscapeSet) : UInt8 × UInt8 × UInt8 :=
  let low := UInt8.ofNat (codePoint &&& 0xFF)
  let high := UInt8.ofNat (codePoint >>> 8)
  let marker : UInt8 := 0x10
  let marker := if set.contains high then marker + 2 else marker
  let marker := if set.contains low then marker + 1 else marker
  let low' := if marker = 0x11 ∨ marker = 0x13 then low + 0x0E else low
  let high' := if marker = 0x12 ∨ marker = 0x13 then high - 0x09 else high
  (marker, low', high')

/-- Rebuilds the code point of a triple, with `u32` wrapping. -/
def reconstruct (marker : Nat) (low high : UInt8) : Nat :=
  let sp := high.toNat * 256 + low.toNat
  if marker = 0x11 then (sp + (2 ^ 32 - 0x0E)) % 2 ^ 32
  else if marker = 0x12 then (sp + 0x900) % 2 ^ 32
  else if marker = 0x13 then (sp + 0x8F2) % 2 ^ 32
  else sp

def isMarkerCodePoint (codePoint : Nat) : Bool := 0x10 ≤ codePoint && codePoint ≤ 0x13

def isMarkerByte (byte : UInt8) : Bool := 0x10 ≤ byte.toNat && byte.toNat ≤ 0x13

/-- `char::from_u32`. -/
def charFromU32 (codePoint : Nat) : Option Char :=
  if codePoint.isValidChar then some (Utf8.charOf codePoint) else none

/-- The character pushed for a code point: `U+FFFD` in the surrogate range. -/
def pushChar (codePoint : Nat) : Char := (charFromU32 codePoint).getD (Utf8.charOf 0xFFFD)

/-! ## Text level -/

/-- Decoded text with the input positions of the markers that were passed through. -/
structure Decoded where
  text : List Char
  brokenSequences : List Nat
  deriving DecidableEq

/-- `finish`: the output, unless some code point was refused. -/
def finish {α : Type} (output : α) (unencodable : List UnencodableCodePoint) :
    Except EncodeError α :=
  if unencodable.isEmpty then .ok output else .error ⟨unencodable⟩

/-- The loop of `encode_text`: the output and the refused code points. -/
def encodeTextFrom (set : EscapeSet) : List Char → Nat → List Char × List UnencodableCodePoint
  | [], _ => ([], [])
  | character :: rest, byteIndex =>
    let codePoint := character.toNat
    let (output, unencodable) := encodeTextFrom set rest (byteIndex + character.utf8Size)
    match unencodableKind codePoint with
    | some kind => (output, ⟨byteIndex, codePoint, kind⟩ :: unencodable)
    | none =>
      if isPassthrough codePoint then (character :: output, unencodable)
      else
        let (marker, low, high) := escapeTriple codePoint set
        (pushChar marker.toNat :: pushChar (byteToChar low) :: pushChar (byteToChar high) :: output,
          unencodable)

/-- Readable text to escaped text. -/
def encodeText (input : List Char) (set : EscapeSet) : Except EncodeError (List Char) :=
  let (output, unencodable) := encodeTextFrom set input 0
  finish output unencodable

/-- The loop of `decode_text`, from the character at byte offset `byteIndex`. A marker with fewer
than two characters behind it is broken. -/
def decodeTextFrom : List Char → Nat → Decoded
  | [], _ => ⟨[], []⟩
  | character :: low :: high :: tail, byteIndex =>
    if isMarkerCodePoint character.toNat then
      let sp := reconstruct character.toNat (charToByte low.toNat) (charToByte high.toNat)
      let decoded := decodeTextFrom tail
        (byteIndex + character.utf8Size + low.utf8Size + high.utf8Size)
      ⟨pushChar sp :: decoded.text, decoded.brokenSequences⟩
    else
      let decoded := decodeTextFrom (low :: high :: tail) (byteIndex + character.utf8Size)
      ⟨character :: decoded.text, decoded.brokenSequences⟩
  | character :: rest, byteIndex =>
    let decoded := decodeTextFrom rest (byteIndex + character.utf8Size)
    ⟨character :: decoded.text, if isMarkerCodePoint character.toNat then
      byteIndex :: decoded.brokenSequences else decoded.brokenSequences⟩

/-- Escaped text to readable text, for every escape set. -/
def decodeText (input : List Char) : Decoded := decodeTextFrom input 0

/-! ## File level -/

/-- The loop of `encode_file` for scripts. -/
def encodeScriptFrom (set : EscapeSet) : List Char → Nat → List UInt8 × List UnencodableCodePoint
  | [], _ => ([], [])
  | character :: rest, byteIndex =>
    let codePoint := character.toNat
    let (bytes, unencodable) := encodeScriptFrom set rest (byteIndex + character.utf8Size)
    if codePoint < 0x100 then (UInt8.ofNat codePoint :: bytes, unencodable)
    else if codePoint = 0xFEFF then (0xEF :: 0xBB :: 0xBF :: bytes, unencodable)
    else
      match mappedByte codePoint with
      | some single => (single :: bytes, unencodable)
      | none =>
        match unencodableKind codePoint with
        | some kind => (bytes, ⟨byteIndex, codePoint, kind⟩ :: unencodable)
        | none =>
          let (marker, low, high) := escapeTriple codePoint set
          (marker :: low :: high :: bytes, unencodable)

/-- Readable text to the on-disk bytes of a profile. -/
def encodeFile (input : List Char) (profile : Profile) (set : EscapeSet) :
    Except EncodeError (List UInt8) :=
  match profile with
  | .localisation => (encodeText input set).map Utf8.encode
  | .script =>
    let (bytes, unencodable) := encodeScriptFrom set input 0
    finish bytes unencodable

/-- A localisation file that is no UTF-8. -/
inductive InvalidUtf8 where
  | invalidUtf8
  deriving DecidableEq

/-- The loop of `decode_file` for scripts, from the byte at `index`. -/
def decodeScriptFrom : List UInt8 → Nat → Decoded
  | [], _ => ⟨[], []⟩
  | byte :: low :: high :: tail, index =>
    if isMarkerByte byte then
      let decoded := decodeScriptFrom tail (index + 3)
      ⟨pushChar (reconstruct byte.toNat low high) :: decoded.text, decoded.brokenSequences⟩
    else
      let decoded := decodeScriptFrom (low :: high :: tail) (index + 1)
      ⟨pushChar (byteToChar byte) :: decoded.text, decoded.brokenSequences⟩
  | byte :: rest, index =>
    let decoded := decodeScriptFrom rest (index + 1)
    ⟨pushChar (byteToChar byte) :: decoded.text, if isMarkerByte byte then
      index :: decoded.brokenSequences else decoded.brokenSequences⟩

/-- On-disk bytes of a profile to readable text. -/
def decodeFile (bytes : List UInt8) (profile : Profile) : Except InvalidUtf8 Decoded :=
  match profile with
  | .localisation =>
    match Utf8.fromUtf8 bytes with
    | .ok input => .ok (decodeText input)
    | .error _ => .error .invalidUtf8
  | .script => .ok (decodeScriptFrom bytes 0)

/-! ## Triples undo their compensation -/

theorem EscapeSet.contains_iff {set : EscapeSet} {b : UInt8} :
    set.contains b = true ↔ b ∈ set.bytes := by
  rw [EscapeSet.contains, List.contains_iff_mem]

/-- Compensating a low byte of the set does not wrap, and only `0x2F` lands on a structural byte
again. -/
theorem compensated_low (set : EscapeSet) : ∀ b ∈ set.bytes,
    (b + 0x0E).toNat = b.toNat + 14 ∧
      (EscapeSet.paratranz.contains (b + 0x0E) = true → b + 0x0E = 0x3D) :=
  forall_mem_of_all (by cases set <;> decide)

/-- Compensating a high byte of the set does not wrap and leaves the structural bytes. -/
theorem compensated_high (set : EscapeSet) : ∀ b ∈ set.bytes, 0x10 ≤ b.toNat →
    (b - 0x09).toNat + 9 = b.toNat ∧ EscapeSet.paratranz.contains (b - 0x09) = false :=
  forall_mem_of_all (by cases set <;> decide)

/-- The canonical set is the smaller one. -/
theorem paratranz_of_not_contains (set : EscapeSet) (b : UInt8) (h : set.contains b = false) :
    EscapeSet.paratranz.contains b = false := by
  have hsub : ∀ b ∈ paratranzEscapeBytes, set.contains b = true :=
    forall_mem_of_all (by cases set <;> decide)
  rw [← Bool.not_eq_true, EscapeSet.contains_iff] at h ⊢
  exact fun hb => h (EscapeSet.contains_iff.mp (hsub b hb))

/-- A payload that `escape_at` accepts behind `marker`: no structural byte, except a compensated
delimiter in the low position. -/
def PayloadAllowed (marker low high : UInt8) : Prop :=
  (EscapeSet.paratranz.contains low = true →
    (marker = 0x11 ∨ marker = 0x13) ∧ (low = 0x3D ∨ low = 0x2F)) ∧
  EscapeSet.paratranz.contains high = false

instance (marker low high : UInt8) : Decidable (PayloadAllowed marker low high) := by
  unfold PayloadAllowed; infer_instance

/-- The four triples, by which of the two bytes is compensated. -/
theorem escapeTriple_eq (cp : Nat) (set : EscapeSet) :
    escapeTriple cp set =
      match set.contains (UInt8.ofNat (cp >>> 8)), set.contains (UInt8.ofNat (cp &&& 0xFF)) with
      | false, false => (0x10, UInt8.ofNat (cp &&& 0xFF), UInt8.ofNat (cp >>> 8))
      | false, true => (0x11, UInt8.ofNat (cp &&& 0xFF) + 0x0E, UInt8.ofNat (cp >>> 8))
      | true, false => (0x12, UInt8.ofNat (cp &&& 0xFF), UInt8.ofNat (cp >>> 8) - 0x09)
      | true, true => (0x13, UInt8.ofNat (cp &&& 0xFF) + 0x0E, UInt8.ofNat (cp >>> 8) - 0x09) := by
  unfold escapeTriple
  dsimp only
  cases set.contains (UInt8.ofNat (cp >>> 8)) <;> cases set.contains (UInt8.ofNat (cp &&& 0xFF)) <;>
    rfl

/-- Every triple of a four-digit code point has a marker in front, rebuilds the code point and
carries a payload that whole-file conversion accepts. -/
theorem escapeTriple_spec (set : EscapeSet) {cp : Nat} (h₁ : 0x1000 ≤ cp) (h₂ : cp < 0x10000) :
    isMarkerByte (escapeTriple cp set).1 = true ∧
    reconstruct (escapeTriple cp set).1.toNat (escapeTriple cp set).2.1 (escapeTriple cp set).2.2 =
      cp ∧
    PayloadAllowed (escapeTriple cp set).1 (escapeTriple cp set).2.1 (escapeTriple cp set).2.2 := by
  have hlow : (UInt8.ofNat (cp &&& 0xFF)).toNat = cp % 256 := by
    rw [show (0xFF : Nat) = 2 ^ 8 - 1 from rfl, Nat.and_two_pow_sub_one_eq_mod]
    exact Utf8.toNat_byte (by omega)
  have hhigh : (UInt8.ofNat (cp >>> 8)).toNat = cp / 256 := by
    rw [Nat.shiftRight_eq_div_pow]
    exact Utf8.toNat_byte (by omega)
  rw [escapeTriple_eq]
  generalize UInt8.ofNat (cp &&& 0xFF) = low at hlow ⊢
  generalize UInt8.ofNat (cp >>> 8) = high at hhigh ⊢
  cases hh : set.contains high <;> cases hl : set.contains low <;> dsimp only
  · refine ⟨rfl, ?_, ?_, paratranz_of_not_contains _ _ hh⟩
    · rw [reconstruct, if_neg (by decide), if_neg (by decide), if_neg (by decide)]; omega
    · intro hc; rw [paratranz_of_not_contains _ _ hl] at hc; cases hc
  · obtain ⟨hv, hd⟩ := compensated_low set low (EscapeSet.contains_iff.mp hl)
    refine ⟨rfl, ?_, fun hc => ⟨Or.inl rfl, Or.inl (hd hc)⟩, paratranz_of_not_contains _ _ hh⟩
    rw [reconstruct, if_pos (by decide), hv]; omega
  · obtain ⟨hv, hd⟩ := compensated_high set high (EscapeSet.contains_iff.mp hh) (by omega)
    refine ⟨rfl, ?_, ?_, hd⟩
    · rw [reconstruct, if_neg (by decide), if_pos (by decide)]; omega
    · intro hc; rw [paratranz_of_not_contains _ _ hl] at hc; cases hc
  · obtain ⟨hvl, hdl⟩ := compensated_low set low (EscapeSet.contains_iff.mp hl)
    obtain ⟨hvh, hdh⟩ := compensated_high set high (EscapeSet.contains_iff.mp hh) (by omega)
    refine ⟨rfl, ?_, fun hc => ⟨Or.inr rfl, Or.inl (hdl hc)⟩, hdh⟩
    rw [reconstruct, if_neg (by decide), if_neg (by decide), if_pos (by decide), hvl]; omega

end ParadoxCode.Transcode
