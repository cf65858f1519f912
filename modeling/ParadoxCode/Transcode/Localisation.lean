import ParadoxCode.Transcode.Pieces

/-!
# Localisation files and the readable text of a file

Encoding a localisation file turns its readable characters into triples and keeps the triples it
holds, so the output scans to the input's pieces with those characters replaced (`scan_encoded`):
encoding again changes nothing and decoding gives the same text. Decoding writes readable UTF-8
(`decodeBuffer_readable`), and on a localisation file the lenient text codec reads the same text
(`decodeText_of_scan`).
-/

namespace ParadoxCode.Transcode

open Utf8 (Chunk Unreadable)

/-! ## Encoding twice -/

/-- A piece as it stands in the encoded localisation file. -/
def Piece.reread (set : EscapeSet) : Piece → Piece
  | .chunk (.char c) =>
    if isPassthrough c.toNat then .chunk (.char c) else .triple (charBytes .localisation set c) c
  | p => p

variable {c : Char}

theorem charBytes_passthrough (h : isPassthrough c.toNat = true) (set : EscapeSet) :
    charBytes .localisation set c = String.utf8EncodeChar c := by
  simp [charBytes, textChars, h]

/-- A character that is no passthrough is written as a triple. -/
theorem isTriple_charBytes (set : EscapeSet) (he : Encodable .localisation c)
    (hp : ¬ isPassthrough c.toNat = true) :
    IsTriple .localisation (charBytes .localisation set c) c := by
  rw [encodable_localisation, unencodableKind_eq_none_iff] at he
  have hp' : ¬ c.toNat < 0x100 := fun h => hp (by simp [isPassthrough, h])
  have ht := isTriple_of_escapeTriple .localisation set (c := c) (by omega) (by omega)
  simpa only [charBytes, textChars, if_neg hp, pushChar_byteToChar] using ht

namespace Piece

variable {set : EscapeSet} {p : Piece}

/-- Rereading replaces the characters that take the triple path; the other pieces are written as
they stand. -/
theorem reread_cases (set : EscapeSet) (p : Piece) :
    (∃ c, p = .chunk (.char c) ∧ ¬ isPassthrough c.toNat = true ∧
      p.reread set = .triple (charBytes .localisation set c) c) ∨
    (p.reread set = p ∧ ∀ set', p.encoded .localisation set' = p.bytes) := by
  cases p with
  | triple raw c => exact Or.inr ⟨rfl, fun _ => rfl⟩
  | chunk k =>
    cases k with
    | byte b => exact Or.inr ⟨rfl, fun _ => rfl⟩
    | char c =>
      by_cases h : isPassthrough c.toNat = true
      · exact Or.inr ⟨by rw [reread, if_pos h], fun set' => charBytes_passthrough h set'⟩
      · exact Or.inl ⟨c, rfl, h, by rw [reread, if_neg h]⟩

theorem char_reread : (p.reread set).char = p.char := by
  rcases reread_cases set p with ⟨c, rfl, -, h⟩ | ⟨h, -⟩ <;> rw [h]
  rfl

theorem bytes_reread : (p.reread set).bytes = p.encoded .localisation set := by
  rcases reread_cases set p with ⟨c, rfl, -, h⟩ | ⟨h, he⟩ <;> rw [h]
  · rfl
  · exact (he set).symm

/-- Encoding writes a reread piece as it stands, for every escape set. -/
theorem encoded_reread (set' : EscapeSet) :
    (p.reread set).encoded .localisation set' = (p.reread set).bytes := by
  rcases reread_cases set p with ⟨c, rfl, -, h⟩ | ⟨h, he⟩ <;> rw [h]
  · rfl
  · exact he set'

theorem wellFormed_reread (ha : p.Accepted .localisation) (hw : p.WellFormed .localisation) :
    (p.reread set).WellFormed .localisation := by
  rcases reread_cases set p with ⟨c, rfl, hc, h⟩ | ⟨h, -⟩ <;> rw [h]
  · exact isTriple_charBytes set ha hc
  · exact hw

theorem accepted_reread (ha : p.Accepted .localisation) :
    (p.reread set).Accepted .localisation := by
  rcases reread_cases set p with ⟨c, rfl, -, h⟩ | ⟨h, -⟩ <;> rw [h]
  · trivial
  · exact ha

/-- A piece that a localisation file may hold is no stray byte. -/
theorem ne_byte (ha : p.Accepted .localisation) (b : UInt8) : p ≠ .chunk (.byte b) := by
  rintro rfl
  cases ha

end Piece

theorem flatMap_encoded_reread (set : EscapeSet) (ps : List Piece) :
    ps.flatMap (Piece.encoded .localisation set) =
      (ps.map (Piece.reread set)).flatMap Piece.bytes := by
  rw [List.flatMap_map]
  congr 1
  funext p
  exact Piece.bytes_reread.symm

variable {ps : List Piece}

/-- The encoded file scans to the pieces of the file with its characters rewritten. -/
theorem scan_encoded (set : EscapeSet)
    (hw : ∀ p ∈ ps, p.WellFormed .localisation) (ha : ∀ p ∈ ps, p.Accepted .localisation) :
    scan .localisation (ps.flatMap (Piece.encoded .localisation set)) =
      some (ps.map (Piece.reread set)) := by
  rw [flatMap_encoded_reread]
  refine scan_flatMap ?_ ?_
  · rw [List.forall_mem_map]
    exact fun p hp => Piece.wellFormed_reread (ha p hp) (hw p hp)
  · rw [List.forall_mem_map]
    exact fun p hp => Piece.ne_byte (Piece.accepted_reread (ha p hp))

/-- The bytes of a triple in a localisation file are characters. -/
theorem IsTriple.exists_encode {raw : List UInt8} (h : IsTriple .localisation raw c) :
    ∃ m c₁ c₂ low high, raw = Utf8.encode [m, c₁, c₂] ∧ isMarkerCodePoint m.toNat = true ∧
      payloadByte c₁ = some low ∧ payloadByte c₂ = some high ∧
      reconstruct m.toNat low high = c.toNat := by
  obtain ⟨m, body, low, high, rfl, hm, ⟨-, hr, -⟩, -, -, hl⟩ := h
  obtain ⟨c₁, c₂, rfl, h₁, h₂⟩ := hl rfl
  have hm' := isMarkerByte_iff.mp hm
  have hmc : (Utf8.charOf m.toNat).toNat = m.toNat :=
    Utf8.toNat_charOf (by unfold Nat.isValidChar; omega)
  refine ⟨Utf8.charOf m.toNat, c₁, c₂, low, high, ?_, ?_, h₁, h₂, by rw [hmc, hr]⟩
  · rw [Utf8.encode_cons (Utf8.charOf m.toNat), Utf8.encodeChar_ascii (by omega), hmc,
      UInt8.ofNat_toNat, List.singleton_append]
  · rw [isMarkerCodePoint_iff, hmc]; exact hm'

theorem exists_encode_flatMap_bytes (hw : ∀ p ∈ ps, p.WellFormed .localisation)
    (ha : ∀ p ∈ ps, p.Accepted .localisation) : ∃ cs, ps.flatMap Piece.bytes = Utf8.encode cs := by
  induction ps with
  | nil => exact ⟨[], rfl⟩
  | cons p ps ih =>
    rw [List.forall_mem_cons] at hw ha
    obtain ⟨cs, hcs⟩ := ih hw.2 ha.2
    obtain ⟨ds, hds⟩ : ∃ ds, p.bytes = Utf8.encode ds := by
      cases p with
      | triple raw c =>
        obtain ⟨m, c₁, c₂, _, _, hraw, -⟩ := IsTriple.exists_encode hw.1
        exact ⟨_, hraw⟩
      | chunk k =>
        cases k with
        | char c => exact ⟨[c], by simp [Piece.bytes, Chunk.bytes]⟩
        | byte b => exact absurd rfl (Piece.ne_byte ha.1 b)
    exact ⟨ds ++ cs, by rw [List.flatMap_cons, hcs, hds, Utf8.encode_append]⟩

variable {profile : Profile}

theorem decodeBuffer_eq_ok_iff {x y : List UInt8} :
    decodeBuffer x profile = .ok y ↔
      (profile = .localisation → ∃ cs, x = Utf8.encode cs) ∧
      ∃ ps, scan profile x = some ps ∧ y = Utf8.encode (ps.map Piece.char) := by
  unfold decodeBuffer
  rw [convert_eq_ok_iff]
  simp only [Piece.Convertible, implies_true, true_and, Piece.converted, flatMap_decoded]

theorem encodeBuffer_eq_ok_iff {set : EscapeSet} {x y : List UInt8} :
    encodeBuffer x profile set = .ok y ↔
      (profile = .localisation → ∃ cs, x = Utf8.encode cs) ∧
      ∃ ps, scan profile x = some ps ∧ (∀ p ∈ ps, p.Accepted profile) ∧
        y = ps.flatMap (Piece.encoded profile set) := convert_eq_ok_iff

/-- Encoding a localisation file is idempotent for every pair of escape sets, and the encoded file
decodes to what the file decodes to. -/
theorem encodeBuffer_localisation_idempotent {x y : List UInt8} (set : EscapeSet)
    (h : encodeBuffer x .localisation set = .ok y) :
    (∀ set', encodeBuffer y .localisation set' = .ok y) ∧
      ∃ z, decodeBuffer x .localisation = .ok z ∧ decodeBuffer y .localisation = .ok z := by
  obtain ⟨hx, ps, hps, ha, rfl⟩ := encodeBuffer_eq_ok_iff.mp h
  have hw := (scan_spec hps).2
  have hscan := scan_encoded set hw ha
  have hchars : (ps.map (Piece.reread set)).map Piece.char = ps.map Piece.char := by
    rw [List.map_map]
    exact List.map_congr_left fun _ _ => Piece.char_reread
  have hutf8 : ∃ cs, ps.flatMap (Piece.encoded .localisation set) = Utf8.encode cs := by
    rw [flatMap_encoded_reread]
    refine exists_encode_flatMap_bytes ?_ ?_ <;> rw [List.forall_mem_map]
    · exact fun p hp => Piece.wellFormed_reread (ha p hp) (hw p hp)
    · exact fun p hp => Piece.accepted_reread (ha p hp)
  constructor
  · intro set'
    refine encodeBuffer_eq_ok_iff.mpr ⟨fun _ => hutf8, _, hscan, ?_, ?_⟩
    · rw [List.forall_mem_map]
      exact fun p hp => Piece.accepted_reread (ha p hp)
    · rw [flatMap_encoded_reread, List.flatMap_map, List.flatMap_map]
      congr 1
      funext p
      exact (Piece.encoded_reread set').symm
  · refine ⟨_, decodeBuffer_eq_ok_iff.mpr ⟨hx, ps, hps, rfl⟩, ?_⟩
    exact decodeBuffer_eq_ok_iff.mpr ⟨fun _ => hutf8, _, hscan, by rw [hchars]⟩

/-- A run, a triple of the other set and a CP1252 payload. -/
theorem encodeBuffer_localisation_idempotent_mixed :
    (∀ set', encodeBuffer [0x41, 0x10, 0x2D, 0x4E, 0x10, 0xE2, 0x80, 0xB0, 0x4E] .localisation
        set' = .ok [0x41, 0x10, 0x2D, 0x4E, 0x10, 0xE2, 0x80, 0xB0, 0x4E]) ∧
      ∃ z, decodeBuffer [0x41, 0x10, 0x2D, 0x4E, 0xE4, 0xBA, 0x89] .localisation = .ok z ∧
        decodeBuffer [0x41, 0x10, 0x2D, 0x4E, 0x10, 0xE2, 0x80, 0xB0, 0x4E] .localisation = .ok z :=
  encodeBuffer_localisation_idempotent .dllFull (by decide +kernel)

/-! ## Decoding writes readable text -/

/-- The character of a piece is no marker. -/
theorem Piece.char_not_marker {p : Piece} (h : p.WellFormed profile) :
    isMarkerCodePoint p.char.toNat = false := by
  cases p with
  | triple raw c =>
    obtain ⟨_, _, _, _, -, -, ⟨-, -, hge, -⟩, -⟩ := h
    rw [← Bool.not_eq_true, isMarkerCodePoint_iff]
    have : 0x1000 ≤ (Piece.triple raw c).char.toNat := hge
    omega
  | chunk k =>
    cases k with
    | char c => exact h
    | byte b =>
      have hb := le_byteToChar h
      rw [← Bool.not_eq_true, isMarkerCodePoint_iff, Piece.char, toNat_byteChar]
      omega

theorem scan_encode_of_not_marker {cs : List Char}
    (h : ∀ c ∈ cs, isMarkerCodePoint c.toNat = false) :
    scan profile (Utf8.encode cs) = some (cs.map fun c => .chunk (.char c)) := by
  have hbytes : Utf8.encode cs = (cs.map fun c => Piece.chunk (.char c)).flatMap Piece.bytes := by
    rw [List.flatMap_map]
    rfl
  rw [hbytes]
  refine scan_flatMap ?_ ?_
  · rw [List.forall_mem_map]
    exact h
  · rw [List.forall_mem_map]
    rintro c - b ⟨⟩

theorem decodeTextFrom_char (h : isMarkerCodePoint c.toNat = false) (cs : List Char)
    (i : Nat) : decodeTextFrom (c :: cs) i =
      ⟨c :: (decodeTextFrom cs (i + c.utf8Size)).text,
        (decodeTextFrom cs (i + c.utf8Size)).brokenSequences⟩ := by
  match cs with
  | [] => simp [decodeTextFrom, h]
  | [d] => simp [decodeTextFrom, h]
  | d :: e :: es => simp [decodeTextFrom, h]

theorem decodeTextFrom_triple {m c₁ c₂ : Char} {low high : UInt8} {cs : List Char} {i : Nat}
    (hm : isMarkerCodePoint m.toNat = true) (h₁ : payloadByte c₁ = some low)
    (h₂ : payloadByte c₂ = some high) (hr : reconstruct m.toNat low high = c.toNat) :
    decodeTextFrom (m :: c₁ :: c₂ :: cs) i =
      ⟨c :: (decodeTextFrom cs (i + m.utf8Size + c₁.utf8Size + c₂.utf8Size)).text,
        (decodeTextFrom cs (i + m.utf8Size + c₁.utf8Size + c₂.utf8Size)).brokenSequences⟩ := by
  rw [decodeTextFrom, if_pos hm, charToByte_of_payloadByte h₁, charToByte_of_payloadByte h₂, hr]
  dsimp only
  rw [pushChar_toNat]

/-- Where the strict scanner finds whole triples, the lenient decoder reads the same characters and
reports nothing. -/
theorem decodeTextFrom_of_scan {cs : List Char}
    (h : scan .localisation (Utf8.encode cs) = some ps) (i : Nat) :
    decodeTextFrom cs i = ⟨ps.map Piece.char, []⟩ := by
  generalize hx : Utf8.encode cs = x at h
  induction x using file_induction .localisation generalizing cs ps i with
  | nil =>
    cases cs with
    | nil => cases h; rfl
    | cons c cs => simp at hx
  | triple raw c rest ht ih =>
    obtain ⟨m, c₁, c₂, low, high, rfl, hm, h₁, h₂, hr⟩ := ht.exists_encode
    rw [scan_triple ht, Option.map_eq_some_iff] at h
    obtain ⟨qs, hq, rfl⟩ := h
    simp only [Utf8.encode_cons, Utf8.encode_nil, List.append_nil, List.append_assoc] at hx
    obtain ⟨ds, rfl, hx₁⟩ := Utf8.exists_of_encode_eq hx.symm
    obtain ⟨ds, rfl, hx₂⟩ := Utf8.exists_of_encode_eq hx₁
    obtain ⟨ds, rfl, hx₃⟩ := Utf8.exists_of_encode_eq hx₂
    rw [decodeTextFrom_triple hm h₁ h₂ hr, ih _ hx₃.symm hq]
    rfl
  | damaged m tail e hm he => rw [scan_damaged hm he] at h; cases h
  | char c rest hc ih =>
    rw [scan_char hc, Option.map_eq_some_iff] at h
    obtain ⟨qs, hq, rfl⟩ := h
    obtain ⟨ds, rfl, hx₁⟩ := Utf8.exists_of_encode_eq hx.symm
    rw [decodeTextFrom_char hc, ih _ hx₁.symm hq]
    rfl
  | byte b rest hu ih =>
    cases cs with
    | nil => simp at hx
    | cons c cs =>
      rw [← hx, Utf8.encode_cons] at hu
      exact absurd hu Utf8.not_unreadable_encodeChar

/-- Whole-file decoding is a projection onto readable UTF-8: its output is a text without markers
and decodes to itself. On a localisation file it is the text of the lenient decoder, which reports
no broken sequence. -/
theorem decodeBuffer_readable {x y : List UInt8} {profile : Profile}
    (h : decodeBuffer x profile = .ok y) :
    (∃ cs, y = Utf8.encode cs) ∧ (∀ b ∈ y, isMarkerByte b = false) ∧
      decodeBuffer y profile = .ok y ∧
      (profile = .localisation → ∃ input, Utf8.fromUtf8 x = .ok input ∧
        (decodeText input).brokenSequences = [] ∧ Utf8.encode (decodeText input).text = y) := by
  obtain ⟨hx, ps, hps, rfl⟩ := decodeBuffer_eq_ok_iff.mp h
  have hm : ∀ c ∈ ps.map Piece.char, isMarkerCodePoint c.toNat = false := by
    rw [List.forall_mem_map]
    exact fun p hp => Piece.char_not_marker ((scan_spec hps).2 p hp)
  refine ⟨⟨_, rfl⟩, ?_, ?_, ?_⟩
  · intro b hb
    rw [Utf8.encode, List.mem_flatMap] at hb
    obtain ⟨c, hc, hb⟩ := hb
    exact isMarkerByte_of_mem_encodeChar (hm c hc) hb
  · refine decodeBuffer_eq_ok_iff.mpr ⟨fun _ => ⟨_, rfl⟩, _, scan_encode_of_not_marker hm, ?_⟩
    rw [List.map_map]
    exact congrArg Utf8.encode (List.map_id _).symm
  · rintro rfl
    obtain ⟨cs, rfl⟩ := hx rfl
    have hd := decodeTextFrom_of_scan hps 0
    exact ⟨cs, Utf8.fromUtf8_encode cs, by rw [decodeText, hd], by rw [decodeText, hd]⟩

/-- A triple behind a readable character. -/
theorem decodeBuffer_readable_triple :
    (∃ cs, [0x41, 0xE4, 0xB8, 0xAD] = Utf8.encode cs) ∧
      (∀ b ∈ ([0x41, 0xE4, 0xB8, 0xAD] : List UInt8), isMarkerByte b = false) ∧
      decodeBuffer [0x41, 0xE4, 0xB8, 0xAD] .localisation = .ok [0x41, 0xE4, 0xB8, 0xAD] ∧
      (Profile.localisation = .localisation → ∃ input,
        Utf8.fromUtf8 [0x41, 0x10, 0x2D, 0x4E] = .ok input ∧
        (decodeText input).brokenSequences = [] ∧
        Utf8.encode (decodeText input).text = [0x41, 0xE4, 0xB8, 0xAD]) :=
  decodeBuffer_readable (x := [0x41, 0x10, 0x2D, 0x4E]) (by decide +kernel)

end ParadoxCode.Transcode
