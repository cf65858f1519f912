import ParadoxCode.Lib.Utf8

/-!
# ASCII case

Folding the case of ASCII letters twice is folding it once, and folding the bytes of a text is
folding its characters.
-/

namespace AsciiCase

theorem toLower_toLower (c : Char) : c.toLower.toLower = c.toLower := by
  unfold Char.toLower
  split_ifs with h h'
  · -- a small letter is not a capital one
    exfalso
    simp only [UInt32.le_iff_toNat_le, UInt32.toNat_add] at h h'
    have : c.val.toNat ≤ 90 := h.2
    have : 65 ≤ c.val.toNat := h.1
    have : (c.val.toNat + 32) % 2 ^ 32 ≤ 90 := h'.2
    omega
  · rfl
  · rfl

theorem toLower_of_le {c : Char} (h : 0x80 ≤ c.toNat) : c.toLower = c := by
  unfold Char.toLower
  refine dif_neg fun hletter => ?_
  have hle : c.toNat ≤ 90 := UInt32.le_iff_toNat_le.mp hletter.2
  omega

theorem toNat_toLower_lt {c : Char} (h : c.toNat < 0x80) : c.toLower.toNat < 0x80 := by
  have hascii : ∀ n : Fin 128, (Char.ofNat n).toLower.toNat < 0x80 := by decide +kernel
  have hc := hascii ⟨c.toNat, h⟩
  rwa [Char.ofNat_toNat] at hc

@[simp] theorem map_toLower_map_toLower (text : List Char) :
    (text.map Char.toLower).map Char.toLower = text.map Char.toLower := by
  rw [List.map_map]
  exact List.map_congr_left fun c _ => toLower_toLower c

/-! ## Bytes -/

/-- The small letter of a byte. -/
def lowerByte (b : UInt8) : UInt8 :=
  if 0x41 ≤ b.toNat ∧ b.toNat ≤ 0x5A then UInt8.ofNat (b.toNat + 0x20) else b

theorem encodeChar_toLower (c : Char) :
    String.utf8EncodeChar c.toLower = (String.utf8EncodeChar c).map lowerByte := by
  by_cases h : c.toNat < 0x80
  · have hascii : ∀ n : Fin 128, String.utf8EncodeChar (Char.ofNat n).toLower =
        (String.utf8EncodeChar (Char.ofNat n)).map lowerByte := by decide +kernel
    have hc := hascii ⟨c.toNat, h⟩
    rwa [Char.ofNat_toNat] at hc
  · rw [Nat.not_lt] at h
    have hlower : c.toLower = c := toLower_of_le h
    have hbytes : ∀ b ∈ String.utf8EncodeChar c, lowerByte b = b := by
      intro b hb
      have hge := Utf8.le_of_mem_encodeChar h hb
      exact if_neg fun hletter => absurd (hge.trans hletter.2) (by decide)
    rw [hlower, List.map_congr_left hbytes, List.map_id']

theorem encode_map_toLower (text : List Char) :
    Utf8.encode (text.map Char.toLower) = (Utf8.encode text).map lowerByte := by
  induction text with
  | nil => rfl
  | cons c text ih => rw [List.map_cons, Utf8.encode_cons, Utf8.encode_cons, List.map_append, ih,
      encodeChar_toLower]

end AsciiCase
