import ParadoxCode.Text

/-!
# The encoding of a mission file

`encoding.rs`: a file that is no UTF-8 is read byte by byte through the CP1252 table, and saved the
same way. A saved text comes back where the saved bytes are read under the encoding that they were
written in, and the table takes each byte back to its character.
-/

namespace ParadoxCode.Eu4

/-- The encoding of a loaded mission file. -/
inductive FileEncoding where
  | utf8
  | cp1252
  deriving DecidableEq

/-- `CP1252_HIGH`: the characters of `0x80..=0x9F`. The `none` entries are undefined in Windows-1252
and fall back to identity. -/
def cp1252High : List (Option Char) :=
  [some '\u20ac', none, some '\u201a', some '\u0192', some '\u201e', some '\u2026', some '\u2020',
    some '\u2021', some '\u02c6', some '\u2030', some '\u0160', some '\u2039', some '\u0152', none,
    some '\u017d', none, none, some '\u2018', some '\u2019', some '\u201c', some '\u201d',
    some '\u2022', some '\u2013', some '\u2014', some '\u02dc', some '\u2122', some '\u0161',
    some '\u203a', some '\u0153', none, some '\u017e', some '\u0178']

/-- `char::from`. -/
def charFrom (byte : UInt8) : Char := Utf8.charOf byte.toNat

def charFromCp1252 (byte : UInt8) : Char :=
  if byte.toNat < 0x80 then charFrom byte
  else if byte.toNat ≤ 0x9F then (cp1252High[byte.toNat - 0x80]?.join).getD (charFrom byte)
  else charFrom byte

def byteFromCp1252 (ch : Char) : Option UInt8 :=
  match cp1252High.findIdx? fun c => c == some ch with
  | some pos => some (UInt8.ofNat (0x80 + pos))
  | none => if ch.toNat < 0x100 then some (UInt8.ofNat ch.toNat) else none

/-- Decodes mission-file bytes: valid UTF-8 stays UTF-8, anything else goes through the table. -/
def decodeBytes (bytes : List UInt8) : Str × FileEncoding :=
  match Utf8.fromUtf8 bytes with
  | .ok text => (text, .utf8)
  | .error _ => (bytes.map charFromCp1252, .cp1252)

/-- A character that the single-byte encoding of the file does not have. -/
structure EncodingError where
  character : Char
  deriving DecidableEq

/-- The bytes of a text in the single-byte encoding, or the first character that has none. -/
def encodeCp1252 : Str → Except EncodingError (List UInt8)
  | [] => .ok []
  | ch :: text =>
    match byteFromCp1252 ch with
    | none => .error ⟨ch⟩
    | some byte => (encodeCp1252 text).map (byte :: ·)

/-- Re-encodes edited content to the encoding of the file. -/
def encodeText (text : Str) : FileEncoding → Except EncodingError (List UInt8)
  | .utf8 => .ok (Utf8.encode text)
  | .cp1252 => encodeCp1252 text

/-! ## The table -/

/-- The characters that CP1252 takes for itself: the table has their code point as the byte of
another character. -/
def Reassigned (ch : Char) : Prop := charFromCp1252 (UInt8.ofNat ch.toNat) ≠ ch ∧ ch.toNat < 0x100

instance (ch : Char) : Decidable (Reassigned ch) := by
  unfold Reassigned
  infer_instance

/-- The entries of the table lie past Latin-1, and their bytes are read as them. -/
theorem cp1252High_entry {pos : Nat} (hpos : pos < cp1252High.length) {ch : Char}
    (h : cp1252High[pos] = some ch) :
    0x100 ≤ ch.toNat ∧ charFromCp1252 (UInt8.ofNat (0x80 + pos)) = ch := by
  have hall : ∀ pos < 32, (cp1252High[pos]?.join.all fun ch =>
      decide (0x100 ≤ ch.toNat) && charFromCp1252 (UInt8.ofNat (0x80 + pos)) == ch) = true := by
    decide +kernel
  have hentry := hall pos hpos
  rw [List.getElem?_eq_getElem hpos, h] at hentry
  simpa using hentry

/-- A Latin-1 character is not in the table. -/
theorem byteFromCp1252_of_lt {ch : Char} (h : ch.toNat < 0x100) :
    byteFromCp1252 ch = some (UInt8.ofNat ch.toNat) := by
  unfold byteFromCp1252
  split
  · rename_i pos hpos
    obtain ⟨hlt, hfound, -⟩ := List.findIdx?_eq_some_iff_getElem.mp hpos
    exact absurd (cp1252High_entry hlt (eq_of_beq hfound)).1 h.not_ge
  · rw [if_pos h]

/-- The table is read back: every byte comes back from its character. -/
theorem byteFromCp1252_charFromCp1252 (byte : UInt8) :
    byteFromCp1252 (charFromCp1252 byte) = some byte := by
  have hlatin : byteFromCp1252 (charFrom byte) = some byte := by
    have hcode : (charFrom byte).toNat = byte.toNat :=
      Utf8.toNat_charOf (.inl (by have := byte.toNat_lt; omega))
    rw [byteFromCp1252_of_lt (by rw [hcode]; exact byte.toNat_lt), hcode, UInt8.ofNat_toNat]
  have hall : ∀ pos < 32, (cp1252High[pos]?.join.all fun ch =>
    byteFromCp1252 ch == some (UInt8.ofNat (0x80 + pos))) = true := by
    decide +kernel
  unfold charFromCp1252
  split_ifs with hlow hhigh
  · exact hlatin
  · cases hentry : cp1252High[byte.toNat - 0x80]?.join with
    | none => exact hlatin
    | some ch =>
      have hback := hall (byte.toNat - 0x80) (by omega)
      rw [hentry, Option.all_some, beq_iff_eq, Nat.add_sub_cancel' (Nat.le_of_not_lt hlow),
        UInt8.ofNat_toNat] at hback
      exact hback
  · exact hlatin

/-- A character comes back from its byte unless the table reassigns it. -/
theorem charFromCp1252_of_byte {ch : Char} {byte : UInt8} (h : byteFromCp1252 ch = some byte) :
    charFromCp1252 byte = ch ↔ ¬ Reassigned ch := by
  unfold byteFromCp1252 at h
  unfold Reassigned
  split at h
  · rename_i pos hpos
    cases h
    obtain ⟨hlt, hfound, -⟩ := List.findIdx?_eq_some_iff_getElem.mp hpos
    obtain ⟨hlarge, hback⟩ := cp1252High_entry hlt (eq_of_beq hfound)
    exact iff_of_true hback fun hno => by omega
  · split_ifs at h with hsmall
    cases h
    simp [hsmall]

theorem charFromCp1252_ascii {byte : UInt8} (h : byte.toNat < 0x80) :
    charFromCp1252 byte = charFrom byte := by
  unfold charFromCp1252
  rw [if_pos h]

/-! ## Bytes of a text -/

variable {text : Str} {bytes : List UInt8}

theorem encodeCp1252_eq_ok_iff :
    encodeCp1252 text = .ok bytes ↔ text.map byteFromCp1252 = bytes.map some := by
  induction text generalizing bytes with
  | nil => cases bytes <;> simp [encodeCp1252]
  | cons ch text ih =>
    unfold encodeCp1252
    cases hbyte : byteFromCp1252 ch with
    | none => cases bytes <;> simp [hbyte]
    | some byte =>
      cases hrest : encodeCp1252 text with
      | error e =>
        have hno (bytes : List UInt8) : ¬ text.map byteFromCp1252 = bytes.map some := by
          rw [← ih, hrest]
          rintro ⟨⟩
        cases bytes <;> simp [hbyte, Except.map, hno]
      | ok rest =>
        have hmap := ih.mp hrest
        cases bytes with
        | nil => simp [Except.map]
        | cons byte' bytes =>
          rw [List.map_cons, List.map_cons, hmap, hbyte]
          simp only [Except.map, Except.ok.injEq, List.cons.injEq, Option.some.injEq]
          rw [List.map_inj_right fun _ _ => Option.some.inj]

/-- A text without reassigned characters is the reading of its bytes. -/
theorem map_charFromCp1252_iff (h : encodeCp1252 text = .ok bytes) :
    bytes.map charFromCp1252 = text ↔ ∀ ch ∈ text, ¬ Reassigned ch := by
  rw [encodeCp1252_eq_ok_iff] at h
  induction text generalizing bytes with
  | nil => cases bytes <;> simp_all
  | cons ch text ih =>
    cases bytes with
    | nil => simp at h
    | cons byte bytes =>
      rw [List.map_cons, List.map_cons, List.cons.injEq] at h
      rw [List.map_cons, List.cons.injEq, charFromCp1252_of_byte h.1, ih h.2, List.forall_mem_cons]

/-- The bytes of an untouched text are the bytes that it was read from. -/
theorem encodeCp1252_map (bytes : List UInt8) :
    encodeCp1252 (bytes.map charFromCp1252) = .ok bytes := by
  rw [encodeCp1252_eq_ok_iff, List.map_map]
  exact List.map_congr_left fun byte _ => byteFromCp1252_charFromCp1252 byte

/-! ## Saving and reloading -/

/-- A text of another encoding: the bytes of UTF-8, read one by one. -/
def Mojibake (text : Str) : Prop :=
  ∃ original : Str, text = (Utf8.encode original).map charFromCp1252 ∧ ∃ c ∈ original,
    0x80 ≤ c.toNat

/-- ASCII bytes are read as the same text in both encodings. -/
theorem map_encode_ascii (h : ∀ c ∈ text, c.toNat < 0x80) :
    (Utf8.encode text).map charFromCp1252 = text := by
  induction text with
  | nil => rfl
  | cons c text ih =>
    rw [List.forall_mem_cons] at h
    have hc := h.1
    rw [Utf8.encode_cons, Utf8.encodeChar_ascii hc, List.singleton_append, List.map_cons, ih h.2,
      charFromCp1252_ascii (by rw [Utf8.toNat_byte (by omega)]; exact hc)]
    unfold charFrom
    rw [Utf8.toNat_byte (by omega), Utf8.charOf_toNat]

/-- A character past ASCII has several bytes in UTF-8. -/
theorem length_encode (text : Str) : text.length ≤ (Utf8.encode text).length := by
  induction text with
  | nil => exact le_rfl
  | cons c text ih =>
    have := Utf8.length_encodeChar_pos c
    rw [Utf8.encode_cons, List.length_append, List.length_cons]
    omega

theorem length_encode_lt (h : ∃ c ∈ text, 0x80 ≤ c.toNat) :
    text.length < (Utf8.encode text).length := by
  obtain ⟨c, hc, hlarge⟩ := h
  obtain ⟨before, after, rfl⟩ := List.append_of_mem hc
  obtain ⟨b, tl, hbytes, -, -, -, htail⟩ := Utf8.encodeChar_cons c
  have htl := List.length_pos_iff.mpr (htail hlarge).2
  have hbefore := length_encode before
  have hafter := length_encode after
  simp only [Utf8.encode_append, Utf8.encode_cons, hbytes, List.length_append, List.length_cons]
  omega

theorem decodeBytes_encode (text : Str) : decodeBytes (Utf8.encode text) = (text, .utf8) := by
  unfold decodeBytes
  rw [Utf8.fromUtf8_encode]

/-- The bytes of a legacy text come back as the text under exactly these conditions. -/
theorem decodeBytes_encodeCp1252_iff (h : encodeCp1252 text = .ok bytes) :
    (decodeBytes bytes).1 = text ↔ (∀ ch ∈ text, ¬ Reassigned ch) ∧ ¬ Mojibake text := by
  have hread := map_charFromCp1252_iff h
  have hlength : text.length = bytes.length := by
    simpa using congrArg List.length (encodeCp1252_eq_ok_iff.mp h)
  cases hutf8 : Utf8.fromUtf8 bytes with
  | ok original =>
    obtain rfl := Utf8.fromUtf8_eq_ok_iff.mp hutf8
    rw [decodeBytes_encode]
    dsimp only
    constructor
    · rintro rfl
      have hascii : ∀ c ∈ original, c.toNat < 0x80 := by
        by_contra hno
        push Not at hno
        exact absurd hlength (Nat.ne_of_lt (length_encode_lt hno))
      refine ⟨hread.mp (map_encode_ascii hascii), ?_⟩
      rintro ⟨other, htext, hother⟩
      have hlt := length_encode_lt hother
      have hbytes := encodeCp1252_map (Utf8.encode other)
      rw [← htext, h] at hbytes
      obtain rfl := Utf8.encode_injective (Except.ok.inj hbytes)
      omega
    · rintro ⟨hplain, hclean⟩
      have hback := hread.mpr hplain
      have hascii : ∀ c ∈ original, c.toNat < 0x80 := by
        by_contra hno
        push Not at hno
        exact hclean ⟨original, hback.symm, hno⟩
      rw [← hback, map_encode_ascii hascii]
  | error e =>
    unfold decodeBytes
    rw [hutf8]
    dsimp only
    rw [hread]
    refine ⟨fun hplain => ⟨hplain, ?_⟩, And.left⟩
    rintro ⟨other, rfl, -⟩
    rw [encodeCp1252_map] at h
    rw [← Except.ok.inj h, Utf8.fromUtf8_encode] at hutf8
    cases hutf8

/-- A session opened from `bytes` keeps its text: what is saved is read back as the text that was
edited, and an untouched text is saved as the bytes it was read from. -/
structure Saves (bytes : List UInt8) (text : Str) : Prop where
  reload : ∀ saved, encodeText text (decodeBytes bytes).2 = .ok saved → (decodeBytes saved).1 = text
  untouched : encodeText (decodeBytes bytes).1 (decodeBytes bytes).2 = .ok bytes

theorem encodeText_decodeBytes (bytes : List UInt8) :
    encodeText (decodeBytes bytes).1 (decodeBytes bytes).2 = .ok bytes := by
  unfold decodeBytes
  cases hutf8 : Utf8.fromUtf8 bytes with
  | ok text =>
    obtain rfl := Utf8.fromUtf8_eq_ok_iff.mp hutf8
    rfl
  | error e => exact encodeCp1252_map bytes

theorem decodeBytes_utf8_iff :
    (decodeBytes bytes).2 = .utf8 ↔ ∃ original, bytes = Utf8.encode original := by
  constructor
  · intro h
    unfold decodeBytes at h
    cases hutf8 : Utf8.fromUtf8 bytes with
    | ok text => exact ⟨text, Utf8.fromUtf8_eq_ok_iff.mp hutf8⟩
    | error e =>
      rw [hutf8] at h
      cases h
  · rintro ⟨original, rfl⟩
    rw [decodeBytes_encode]

/-- A legacy text is rejected where one of its characters has no byte. -/
theorem encodeCp1252_error_iff :
    (∀ bytes, encodeCp1252 text ≠ .ok bytes) ↔ ∃ ch ∈ text, byteFromCp1252 ch = none := by
  induction text with
  | nil => simp [encodeCp1252]
  | cons ch text ih =>
    unfold encodeCp1252
    cases hbyte : byteFromCp1252 ch with
    | none => exact iff_of_true (fun _ => by rintro ⟨⟩) ⟨ch, List.mem_cons_self, hbyte⟩
    | some byte =>
      have htail : (∃ c ∈ ch :: text, byteFromCp1252 c = none) ↔
          ∃ c ∈ text, byteFromCp1252 c = none := by simp [hbyte]
      rw [htail, ← ih]
      cases encodeCp1252 text with
      | error e => exact iff_of_true (fun _ => by rintro ⟨⟩) fun _ => by rintro ⟨⟩
      | ok rest => exact iff_of_false (fun hno => hno _ rfl) fun hno => hno _ rfl

/-- A text edited in a session opened from `bytes` is kept if and only if the session is a UTF-8
one, or the text is rejected for a character without a byte, or no character of it is reassigned and
it is not the reading of the UTF-8 bytes of a text past ASCII. -/
theorem saves_iff (bytes : List UInt8) (text : Str) : Saves bytes text ↔
    (∃ original, bytes = Utf8.encode original) ∨ (∃ ch ∈ text, byteFromCp1252 ch = none) ∨
      (∀ ch ∈ text, ¬ Reassigned ch) ∧ ¬ Mojibake text := by
  have hsaves : Saves bytes text ↔ ∀ saved, encodeText text (decodeBytes bytes).2 = .ok saved →
      (decodeBytes saved).1 = text :=
    ⟨Saves.reload, fun h => ⟨h, encodeText_decodeBytes bytes⟩⟩
  rw [hsaves, ← decodeBytes_utf8_iff, ← encodeCp1252_error_iff]
  cases hencoding : (decodeBytes bytes).2 with
  | utf8 =>
    refine iff_of_true ?_ (Or.inl rfl)
    rintro saved ⟨⟩
    rw [decodeBytes_encode]
  | cp1252 =>
    rw [or_iff_right FileEncoding.noConfusion]
    unfold encodeText
    cases hsaved : encodeCp1252 text with
    | error e => exact iff_of_true (fun _ => by rintro ⟨⟩) (Or.inl fun _ => by rintro ⟨⟩)
    | ok saved =>
      rw [or_iff_right fun hno => hno saved rfl, ← decodeBytes_encodeCp1252_iff hsaved]
      exact ⟨fun h => h saved rfl, by rintro h _ ⟨⟩; exact h⟩

/-- `Ã©` typed into a legacy file is saved as the UTF-8 bytes of `é`. -/
theorem not_saves_mojibake : ¬ Saves [0xF4] "Ã©".toList := by
  intro h
  have hsaved := h.reload [0xC3, 0xA9] (by decide +kernel)
  have hback : (decodeBytes [0xC3, 0xA9]).1 = "é".toList := by decide +kernel
  rw [hback] at hsaved
  revert hsaved
  decide

end ParadoxCode.Eu4
