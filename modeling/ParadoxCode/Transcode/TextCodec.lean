import ParadoxCode.Text
import ParadoxCode.Transcode.Script

/-!
# The text codec and the two script codecs

1. The code points that encoding refuses, with their offsets.
2. `encode_text` is exact: it refuses what it cannot write and what it writes is read back.
3. The characters of a script, read byte by byte, are decoded like its bytes.
-/

namespace ParadoxCode.Transcode

open Utf8 (charOf)

/-! ## Refused code points -/

/-- `char_indices`, from the character at byte offset `index`. -/
def charIndicesFrom : List Char → Nat → List (Nat × Char)
  | [], _ => []
  | c :: cs, index => (index, c) :: charIndicesFrom cs (index + c.utf8Size)

def charIndices (text : List Char) : List (Nat × Char) := charIndicesFrom text 0

/-- What a file of the profile refuses about a character. -/
def refusal (profile : Profile) (at' : Nat × Char) : Option UnencodableCodePoint :=
  (fileUnencodableKind at'.2.toNat profile).map fun kind => ⟨at'.1, at'.2.toNat, kind⟩

/-- The refused characters of a text at byte offset `index`. -/
def refusalsFrom (profile : Profile) (text : List Char) (index : Nat) : List UnencodableCodePoint :=
  (charIndicesFrom text index).filterMap (refusal profile)

section

variable (profile : Profile) (set : EscapeSet)

@[simp] theorem charIndicesFrom_nil (index : Nat) : charIndicesFrom [] index = [] := rfl

@[simp] theorem charIndicesFrom_cons (c : Char) (cs : List Char) (index : Nat) :
    charIndicesFrom (c :: cs) index = (index, c) :: charIndicesFrom cs (index + c.utf8Size) := rfl

@[simp] theorem refusalsFrom_nil (index : Nat) : refusalsFrom profile [] index = [] := rfl

theorem refusalsFrom_cons (c : Char) (cs : List Char) (index : Nat) :
    refusalsFrom profile (c :: cs) index =
      (refusal profile (index, c)).toList ++ refusalsFrom profile cs (index + c.utf8Size) := by
  unfold refusalsFrom
  rw [charIndicesFrom_cons, List.filterMap_cons]
  cases refusal profile (index, c) <;> rfl

theorem refusal_eq_none_iff {index : Nat} {c : Char} : refusal profile (index, c) = none ↔
    Encodable profile c := by
  unfold refusal Encodable
  rw [Option.map_eq_none_iff]

/-- Nothing is refused where every character can be written. -/
theorem refusalsFrom_eq_nil_iff {cs : List Char} {index : Nat} :
    refusalsFrom profile cs index = [] ↔ ∀ c ∈ cs, Encodable profile c := by
  induction cs generalizing index with
  | nil => simp
  | cons c cs ih =>
    rw [refusalsFrom_cons, List.append_eq_nil_iff, ih, Option.toList_eq_nil_iff,
      refusal_eq_none_iff, List.forall_mem_cons]

theorem encodeTextFrom_refusals (cs : List Char) (index : Nat) :
    (encodeTextFrom set cs index).2 = refusalsFrom .localisation cs index := by
  induction cs generalizing index with
  | nil => rfl
  | cons c cs ih =>
    have hkind : refusal .localisation (index, c) =
        (unencodableKind c.toNat).map fun kind => ⟨index, c.toNat, kind⟩ := rfl
    rw [refusalsFrom_cons, hkind, ← ih, encodeTextFrom]
    dsimp only
    cases unencodableKind c.toNat with
    | some kind => rfl
    | none =>
      dsimp only
      split_ifs <;> rfl

theorem encodeScriptFrom_refusals (cs : List Char) (index : Nat) :
    (encodeScriptFrom set cs index).2 = refusalsFrom .script cs index := by
  induction cs generalizing index with
  | nil => rfl
  | cons c cs ih =>
    rw [refusalsFrom_cons, ← ih, encodeScriptFrom]
    unfold refusal fileUnencodableKind
    dsimp only
    -- Bytes and the byte order mark are refused by nobody.
    have hplain (h : c.toNat < 0x100 ∨ c.toNat = 0xFEFF) : unencodableKind c.toNat = none := by
      rw [unencodableKind_eq_none_iff]
      omega
    have hscript : (Profile.script == .script) = true := rfl
    rw [hscript, Bool.true_and]
    by_cases hlow : c.toNat < 0x100
    · rw [if_pos hlow, hplain (.inl hlow)]
      split_ifs <;> rfl
    by_cases hbom : c.toNat = 0xFEFF
    · rw [if_neg hlow, if_pos hbom, hplain (.inr hbom)]
      split_ifs <;> rfl
    rw [if_neg hlow, if_neg hbom]
    cases mappedByte c.toNat with
    | some single => rfl
    | none =>
      rw [Option.isSome_none, if_neg Bool.false_ne_true]
      cases unencodableKind c.toNat <;> rfl

/-- What `encode_file` gives: the bytes of the characters, unless some character is refused. -/
theorem encodeFile_eq (cs : List Char) :
    encodeFile cs profile set =
      if refusalsFrom profile cs 0 = [] then .ok (cs.flatMap (charBytes profile set))
      else .error ⟨refusalsFrom profile cs 0⟩ := by
  split_ifs with h
  · exact encodeFile_eq_ok_iff.mpr ⟨(refusalsFrom_eq_nil_iff profile).mp h, rfl⟩
  · have hfinish {α : Type} (output : α) (points : List UnencodableCodePoint) (hne : points ≠ []) :
        finish output points = .error ⟨points⟩ := by
      unfold finish
      rw [if_neg (by rwa [List.isEmpty_iff])]
    cases profile with
    | localisation =>
      have hrefused := encodeTextFrom_refusals set cs 0
      unfold encodeFile encodeText
      dsimp only
      rw [hfinish _ _ (by rwa [hrefused]), hrefused]
      rfl
    | script =>
      have hrefused := encodeScriptFrom_refusals set cs 0
      unfold encodeFile
      dsimp only
      rw [hfinish _ _ (by rwa [hrefused]), hrefused]

end

/-! ## The text codec is exact -/

/-- The code points that the text codec cannot write. -/
def OutOfRange (c : Char) : Prop := (0x100 ≤ c.toNat ∧ c.toNat ≤ 0xFFF) ∨ 0xFFFF < c.toNat

instance (c : Char) : Decidable (OutOfRange c) := by unfold OutOfRange; infer_instance

/-- A code point out of range at its offset. -/
def outOfRangeAt (at' : Nat × Char) : UnencodableCodePoint :=
  ⟨at'.1, at'.2.toNat, if at'.2.toNat ≤ 0xFFF then .mangledLowPlane else .beyondBmp⟩

theorem encodable_localisation_iff {c : Char} : Encodable .localisation c ↔ ¬OutOfRange c := by
  rw [encodable_localisation, unencodableKind_eq_none_iff]
  unfold OutOfRange
  omega

theorem refusal_localisation (at' : Nat × Char) :
    refusal .localisation at' = if OutOfRange at'.2 then some (outOfRangeAt at') else none := by
  by_cases h : OutOfRange at'.2
  · rw [if_pos h]
    unfold OutOfRange at h
    have hkind : unencodableKind at'.2.toNat =
        some (if at'.2.toNat ≤ 0xFFF then .mangledLowPlane else .beyondBmp) := by
      unfold unencodableKind
      simp only [Bool.or_eq_true, decide_eq_true_eq, beq_iff_eq]
      rw [if_neg (by omega)]
      split_ifs with hlow hhigh
      · rfl
      · rfl
      · omega
    show (unencodableKind at'.2.toNat).map _ = _
    rw [hkind]
    rfl
  · rw [if_neg h]
    exact (refusal_eq_none_iff .localisation).mpr (encodable_localisation_iff.mpr h)

theorem refusalsFrom_localisation (cs : List Char) (index : Nat) :
    refusalsFrom .localisation cs index =
      ((charIndicesFrom cs index).filter fun at' => decide (OutOfRange at'.2)).map
        outOfRangeAt := by
  induction cs generalizing index with
  | nil => rfl
  | cons c cs ih =>
    rw [refusalsFrom_cons, ih, refusal_localisation, charIndicesFrom_cons, List.filter_cons]
    by_cases h : OutOfRange c
    · rw [if_pos h, if_pos (decide_eq_true h)]
      rfl
    · rw [if_neg h, if_neg (by rwa [decide_eq_true_eq])]
      rfl

/-- What `encode_text` gives. -/
theorem encodeText_eq (cs : List Char) (set : EscapeSet) :
    encodeText cs set =
      if refusalsFrom .localisation cs 0 = [] then .ok (cs.flatMap (textChars set))
      else .error ⟨refusalsFrom .localisation cs 0⟩ := by
  have hrefused := encodeTextFrom_refusals set cs 0
  unfold encodeText finish
  dsimp only
  rw [hrefused]
  split_ifs with hempty hnil hnil
  · rw [(encodeTextFrom_spec set cs 0).2 ((refusalsFrom_eq_nil_iff _).mp hnil)]
  · exact absurd (List.isEmpty_iff.mp hempty) hnil
  · rw [hnil] at hempty
    exact absurd rfl hempty
  · rfl

/-- What is written for a character is read back as that character, whatever follows it. -/
theorem decodeTextFrom_textChars {c : Char} (set : EscapeSet) (he : Encodable .localisation c)
    (hm : isMarkerCodePoint c.toNat = false) (cs : List Char) (index : Nat) : ∃ next,
    decodeTextFrom (textChars set c ++ cs) index =
      ⟨c :: (decodeTextFrom cs next).text, (decodeTextFrom cs next).brokenSequences⟩ := by
  unfold textChars
  split_ifs with hpass
  · exact ⟨_, decodeTextFrom_char hm cs index⟩
  · have hrange : 0x1000 ≤ c.toNat ∧ c.toNat < 0x10000 := by
      rw [encodable_localisation, unencodableKind_eq_none_iff] at he
      unfold isPassthrough at hpass
      simp only [Bool.or_eq_true, decide_eq_true_eq, not_or] at hpass
      omega
    obtain ⟨hmarker, hsame, -⟩ := escapeTriple_spec set hrange.1 hrange.2
    generalize escapeTriple c.toNat set = triple at hmarker hsame
    obtain ⟨marker, low, high⟩ := triple
    have hchar : (pushChar marker.toNat).toNat = marker.toNat := by
      rw [isMarkerByte_iff] at hmarker
      have hvalid : marker.toNat.isValidChar := by
        unfold Nat.isValidChar
        dsimp only at hmarker
        omega
      rw [pushChar, charFromU32_eq_some_iff.mpr (Utf8.toNat_charOf hvalid), Option.getD_some,
        Utf8.toNat_charOf hvalid]
    have hpushed : isMarkerCodePoint (pushChar marker.toNat).toNat = true := by
      rw [hchar, isMarkerCodePoint_iff, ← isMarkerByte_iff]
      exact hmarker
    refine ⟨_, @decodeTextFrom_triple _ _ _ _ low high _ _ hpushed ?_ ?_
      (by rw [hchar]; exact hsame)⟩
    · rw [pushChar_byteToChar, payloadByte_byteChar]
    · rw [pushChar_byteToChar, payloadByte_byteChar]

theorem decodeTextFrom_flatMap {cs : List Char} (set : EscapeSet)
    (he : ∀ c ∈ cs, Encodable .localisation c)
    (hm : ∀ c ∈ cs, isMarkerCodePoint c.toNat = false) (index : Nat) :
    decodeTextFrom (cs.flatMap (textChars set)) index = ⟨cs, []⟩ := by
  induction cs generalizing index with
  | nil => rfl
  | cons c cs ih =>
    rw [List.forall_mem_cons] at he hm
    obtain ⟨next, hnext⟩ := decodeTextFrom_textChars set he.1 hm.1
      (cs.flatMap (textChars set)) index
    rw [List.flatMap_cons, hnext, ih he.2 hm.2]

/-- **The text codec is exact** on texts without markers: it fails exactly for the code points out
of range and lists them, and what it writes is read back without broken sequences. -/
theorem encodeText_exact (text : Str) (set : EscapeSet)
    (h : ∀ c ∈ text, isMarkerCodePoint c.toNat = false) :
    ((∃ escaped, encodeText text set = .ok escaped) ↔ ∀ c ∈ text, ¬OutOfRange c) ∧
      (∀ error, encodeText text set = .error error →
        error.unencodable = ((charIndices text).filter fun at' => decide (OutOfRange at'.2)).map
          outOfRangeAt) ∧
      ∀ escaped, encodeText text set = .ok escaped → decodeText escaped = ⟨text, []⟩ := by
  have hnil : refusalsFrom .localisation text 0 = [] ↔ ∀ c ∈ text, ¬OutOfRange c := by
    rw [refusalsFrom_eq_nil_iff]
    exact forall₂_congr fun c _ => encodable_localisation_iff
  rw [encodeText_eq]
  split_ifs with hrefused
  · refine ⟨⟨fun _ => hnil.mp hrefused, fun _ => ⟨_, rfl⟩⟩, fun error herror => ?_,
      fun escaped hescaped => ?_⟩
    · cases herror
    · cases hescaped
      exact decodeTextFrom_flatMap set ((refusalsFrom_eq_nil_iff _).mp hrefused) h 0
  · refine ⟨⟨fun ⟨_, hescaped⟩ => ?_, fun hall => absurd (hnil.mpr hall) hrefused⟩,
      fun error herror => ?_,
      fun escaped hescaped => ?_⟩
    · cases hescaped
    · cases herror
      exact refusalsFrom_localisation text 0
    · cases hescaped

/-- A text with an accented letter, a character of three bytes and one out of range. -/
theorem encodeText_exact_mixed :
    ((∃ escaped, encodeText [Char.ofNat 0xE9, Char.ofNat 0x4E2D, Char.ofNat 0x160] .paratranz =
        .ok escaped) ↔
        ∀ c ∈ [Char.ofNat 0xE9, Char.ofNat 0x4E2D, Char.ofNat 0x160], ¬OutOfRange c) ∧
      ∀ escaped, encodeText [Char.ofNat 0xE9, Char.ofNat 0x4E2D] .paratranz = .ok escaped →
        decodeText escaped = ⟨[Char.ofNat 0xE9, Char.ofNat 0x4E2D], []⟩ := by
  have hplain : ∀ c ∈ [Char.ofNat 0xE9, Char.ofNat 0x4E2D, Char.ofNat 0x160],
    isMarkerCodePoint c.toNat = false := by
    simp only [List.forall_mem_cons]
    exact ⟨rfl, rfl, rfl, fun _ hc => absurd hc List.not_mem_nil⟩
  refine ⟨(encodeText_exact _ .paratranz hplain).1, (encodeText_exact _ .paratranz ?_).2.2⟩
  exact fun c hc => hplain c (@List.mem_of_mem_take _ 2 c _ hc)

/-! ## A script read as characters -/

/-- `script_roundtrip_is_canonical`. -/
def scriptRoundtripIsCanonical (text : Str) : Bool :=
  match encodeFile (decodeText text).text .script .paratranz with
  | .error _ => false
  | .ok bytes => (bytes.map fun byte => pushChar (byteToChar byte)) == text

/-- The text of some bytes, read one by one through CP1252. -/
def byteText (bytes : List UInt8) : Str := bytes.map byteChar

/-- Where the byte at `index` stands in the text of the bytes. -/
def charOffset (bytes : List UInt8) (index : Nat) : Nat := byteLen (byteText (bytes.take index))

theorem byteText_injective {bytes bytes' : List UInt8} (h : byteText bytes = byteText bytes') :
    bytes = bytes' := by
  have hread (bytes : List UInt8) : (byteText bytes).map (fun c => charToByte c.toNat) = bytes := by
    unfold byteText
    rw [List.map_map]
    refine (List.map_congr_left fun b _ => ?_).trans (List.map_id bytes)
    show charToByte (byteChar b).toNat = b
    rw [toNat_byteChar, charToByte_byteToChar]
  rw [← hread bytes, h, hread]

/-- The marker bytes are the markers among the characters. -/
theorem isMarkerCodePoint_byteChar (b : UInt8) : isMarkerCodePoint (byteChar b).toNat =
    isMarkerByte b := by
  rw [toNat_byteChar, Bool.eq_iff_iff, isMarkerCodePoint_iff, isMarkerByte_iff]
  rcases byteToChar_cases b with h | ⟨hlow, -, hchar, -⟩
  · rw [h]
  · omega

theorem toNat_byteChar_of_marker {b : UInt8} (h : isMarkerByte b = true) :
    (byteChar b).toNat = b.toNat := by
  rw [isMarkerByte_iff] at h
  exact byteChar_ascii (by omega)

theorem byteLen_byteText_concat (before : List UInt8) (byte : UInt8) :
    byteLen (byteText (before ++ [byte])) = byteLen (byteText before) +
      (byteChar byte).utf8Size := by
  unfold byteText
  rw [List.map_append, byteLen_append, List.map_singleton, byteLen_cons, byteLen_nil, Nat.add_zero]

/-- The two decoders read the same characters, and the markers that the character decoder passes
through stand where the byte decoder passes them through. -/
theorem decodeTextFrom_byteText : ∀ bytes before : List UInt8,
    decodeTextFrom (byteText bytes) (byteLen (byteText before)) =
      ⟨(decodeScriptFrom bytes before.length).text,
        (decodeScriptFrom bytes before.length).brokenSequences.map (charOffset (before ++ bytes))⟩
  | [], _ => rfl
  | byte :: low :: high :: tail, before => by
    have hmarker := isMarkerCodePoint_byteChar byte
    cases hbyte : isMarkerByte byte with
    | true =>
      have ih := decodeTextFrom_byteText tail (before ++ [byte, low, high])
      have hbefore : before ++ [byte, low, high] = before ++ [byte] ++ [low] ++ [high] := by simp
      rw [hbefore, byteLen_byteText_concat, byteLen_byteText_concat,
        byteLen_byteText_concat, ← hbefore, List.length_append, List.append_assoc] at ih
      show decodeTextFrom (byteChar byte :: byteChar low :: byteChar high :: byteText tail) _ = _
      rw [decodeTextFrom, if_pos (by rw [hmarker, hbyte]), decodeScriptFrom, if_pos hbyte]
      dsimp only
      rw [ih, toNat_byteChar_of_marker hbyte, toNat_byteChar low, toNat_byteChar high,
        charToByte_byteToChar, charToByte_byteToChar]
      rfl
    | false =>
      have ih := decodeTextFrom_byteText (low :: high :: tail) (before ++ [byte])
      rw [byteLen_byteText_concat, List.length_append, List.append_assoc] at ih
      show decodeTextFrom (byteChar byte :: byteText (low :: high :: tail)) _ = _
      rw [decodeTextFrom_char (by rw [hmarker, hbyte]), ih, decodeScriptFrom_byte hbyte]
      rfl
  | [byte], before => by
    have hoffset : charOffset (before ++ [byte]) before.length = byteLen (byteText before) := by
      unfold charOffset
      rw [List.take_left]
    show decodeTextFrom [byteChar byte] _ = _
    rw [decodeTextFrom, decodeScriptFrom, isMarkerCodePoint_byteChar, pushChar_byteToChar]
    · cases isMarkerByte byte with
      | true => rw [if_pos rfl, if_pos rfl, List.map_cons, hoffset]; rfl
      | false => rfl
    · intro _ _ _ h
      cases h
    · intro _ _ _ h
      cases h
  | [byte, low], before => by
    have ih := decodeTextFrom_byteText [low] (before ++ [byte])
    have hbroken : charOffset (before ++ [byte, low]) before.length =
      byteLen (byteText before) := by
      unfold charOffset
      rw [List.take_left]
    rw [byteLen_byteText_concat, List.length_append, List.append_assoc] at ih
    show decodeTextFrom (byteChar byte :: byteText [low]) _ = _
    rw [decodeTextFrom, decodeScriptFrom, isMarkerCodePoint_byteChar, pushChar_byteToChar, ih]
    · cases isMarkerByte byte with
      | true => rw [if_pos rfl, if_pos rfl, List.map_cons, hbroken]; rfl
      | false => rfl
    · intro _ _ _ h
      cases h
    · intro _ _ _ h
      cases h

/-- **The character codec of scripts agrees with the byte codec**: the text of a file is decoded
like its bytes, with the broken markers in the same places, and its round trip is canonical where
the one of the bytes is. -/
theorem decodeText_byteText (bytes : List UInt8) : ∃ decoded,
    decodeFile bytes .script = .ok decoded ∧ (decodeText (byteText bytes)).text = decoded.text ∧
    (decodeText (byteText bytes)).brokenSequences = decoded.brokenSequences.map (charOffset bytes) ∧
    (scriptRoundtripIsCanonical (byteText bytes) = true ↔
      encodeFile decoded.text .script .paratranz = .ok bytes) := by
  have hdecoded : decodeText (byteText bytes) =
      ⟨(decodeScriptFrom bytes 0).text, (decodeScriptFrom bytes 0).brokenSequences.map
        (charOffset bytes)⟩ :=
    decodeTextFrom_byteText bytes []
  refine ⟨decodeScriptFrom bytes 0, rfl, by rw [hdecoded], by rw [hdecoded], ?_⟩
  unfold scriptRoundtripIsCanonical
  rw [hdecoded]
  cases encodeFile (decodeScriptFrom bytes 0).text .script .paratranz with
  | error error => simp
  | ok again =>
    have htext : (again.map fun byte => pushChar (byteToChar byte)) = byteText again :=
      List.map_congr_left fun b _ => pushChar_byteToChar b
    dsimp only
    rw [htext, beq_iff_eq, Except.ok.injEq]
    exact ⟨byteText_injective, fun h => by rw [h]⟩

end ParadoxCode.Transcode
