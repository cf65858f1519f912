import ParadoxCode.Lib.Utf8

/-!
# The CP1252 high range

`cp1252.rs`: the 27 bytes above ASCII that CP1252 maps outside Latin-1, and the three lookups over
them. The five undefined slots (`0x81 0x8D 0x8F 0x90 0x9D`) are no entries and stand for themselves.
A code point is a `Nat`; the lookups only compare and truncate it.
-/

namespace ParadoxCode.Transcode

/-- The mapped bytes with their code points, sorted by byte. -/
def cp1252Map : List (UInt8 × Nat) :=
  [(0x80, 0x20AC), (0x82, 0x201A), (0x83, 0x0192), (0x84, 0x201E), (0x85, 0x2026), (0x86, 0x2020),
    (0x87, 0x2021), (0x88, 0x02C6), (0x89, 0x2030), (0x8A, 0x0160), (0x8B, 0x2039), (0x8C, 0x0152),
    (0x8E, 0x017D), (0x91, 0x2018), (0x92, 0x2019), (0x93, 0x201C), (0x94, 0x201D), (0x95, 0x2022),
    (0x96, 0x2013), (0x97, 0x2014), (0x98, 0x02DC), (0x99, 0x2122), (0x9A, 0x0161), (0x9B, 0x203A),
    (0x9C, 0x0153), (0x9E, 0x017E), (0x9F, 0x0178)]

/-- The single byte of a mapped code point. -/
def mappedByte (codePoint : Nat) : Option UInt8 :=
  (cp1252Map.find? fun entry => entry.2 == codePoint).map (·.1)

/-- The code point a byte denotes inside an escape triple. -/
def byteToChar (byte : UInt8) : Nat :=
  match cp1252Map.find? fun entry => entry.1 == byte with
  | some entry => entry.2
  | none => byte.toNat

/-- The inverse of `byteToChar`; a corrupt code point is truncated to its low byte. -/
def charToByte (codePoint : Nat) : UInt8 :=
  match cp1252Map.find? fun entry => entry.2 == codePoint with
  | some entry => entry.1
  | none => if codePoint < 0x100 then UInt8.ofNat codePoint else UInt8.ofNat (codePoint &&& 0xFF)

/-! ## The table -/

/-- A property of the members of a list, checked one by one. -/
theorem forall_mem_of_all {α : Type*} {p : α → Prop} [DecidablePred p] {l : List α}
    (h : l.all (fun a => decide (p a)) = true) : ∀ a ∈ l, p a := by
  intro a ha
  exact of_decide_eq_true (List.all_eq_true.mp h a ha)

theorem cp1252Map_moved : ∀ entry ∈ cp1252Map, 0x80 ≤ entry.1.toNat ∧ entry.1.toNat < 0xA0 ∧
    0x100 ≤ entry.2 ∧ entry.2 < 0x2123 ∧ mappedByte entry.2 = some entry.1 :=
      forall_mem_of_all (by decide)

/-- Where CP1252 moves a byte, it moves it past Latin-1 and `mappedByte` moves it back. -/
theorem byteToChar_cases (b : UInt8) :
    byteToChar b = b.toNat ∨ (0x80 ≤ b.toNat ∧ b.toNat < 0xA0 ∧ 0x100 ≤ byteToChar b ∧
      byteToChar b < 0x2123 ∧ mappedByte (byteToChar b) = some b) := by
  unfold byteToChar
  cases hfound : cp1252Map.find? fun entry => entry.1 == b with
  | none => exact .inl rfl
  | some entry =>
    obtain rfl : entry.1 = b := by simpa using List.find?_some hfound
    exact .inr (cp1252Map_moved entry (List.mem_of_find?_eq_some hfound))

variable {cp : Nat} {b : UInt8}

theorem mappedByte_mem (h : mappedByte cp = some b) : (b, cp) ∈ cp1252Map := by
  simp only [mappedByte, Option.map_eq_some_iff] at h
  obtain ⟨entry, he, rfl⟩ := h
  have hp := List.find?_some he
  rw [beq_iff_eq] at hp
  subst hp
  exact List.mem_of_find?_eq_some he

/-- The entries: bytes of the C1 range, code points past Latin-1, both lookups inverse to it. -/
theorem cp1252Map_entry : ∀ entry ∈ cp1252Map, 0x80 ≤ entry.1.toNat ∧ entry.1.toNat < 0xA0 ∧
    0x100 ≤ entry.2 ∧ entry.2 < 0x2123 ∧ byteToChar entry.1 = entry.2 ∧
      charToByte entry.2 = entry.1 := forall_mem_of_all (by decide)

theorem mappedByte_eq_none_of_lt (h : cp < 0x100) : mappedByte cp = none := by
  cases hb : mappedByte cp with
  | none => rfl
  | some b =>
    have := (cp1252Map_entry _ (mappedByte_mem hb)).2.2.1
    dsimp only at this
    omega

theorem byteToChar_of_mappedByte (h : mappedByte cp = some b) :
    byteToChar b = cp := (cp1252Map_entry _ (mappedByte_mem h)).2.2.2.2.1

theorem charToByte_of_mappedByte (h : mappedByte cp = some b) :
    charToByte cp = b := (cp1252Map_entry _ (mappedByte_mem h)).2.2.2.2.2

theorem mappedByte_bounds (h : mappedByte cp = some b) :
    0x80 ≤ b.toNat ∧ b.toNat < 0xA0 ∧ 0x100 ≤ cp ∧ cp < 0x2123 := by
  obtain ⟨h₁, h₂, h₃, h₄, -⟩ := cp1252Map_entry _ (mappedByte_mem h)
  exact ⟨h₁, h₂, h₃, h₄⟩

theorem charToByte_of_lt (h : cp < 0x100) : charToByte cp = UInt8.ofNat cp := by
  have hf : (cp1252Map.find? fun entry => entry.2 == cp) = none := by
    have := mappedByte_eq_none_of_lt h
    rwa [mappedByte, Option.map_eq_none_iff] at this
  simp only [charToByte, hf, if_pos h]

/-- Every byte denotes a scalar value. -/
theorem byteToChar_valid (b : UInt8) : (byteToChar b).isValidChar := by
  have hb := b.toNat_lt
  unfold Nat.isValidChar
  rcases byteToChar_cases b with h | ⟨-, -, -, h, -⟩ <;> omega

theorem charToByte_byteToChar (b : UInt8) : charToByte (byteToChar b) = b := by
  rcases byteToChar_cases b with h | ⟨-, -, -, -, h⟩
  · rw [h, charToByte_of_lt b.toNat_lt, UInt8.ofNat_toNat]
  · exact charToByte_of_mappedByte h

/-- The scalar value of a byte. -/
def byteChar (byte : UInt8) : Char := Utf8.charOf (byteToChar byte)

theorem toNat_byteChar (b : UInt8) : (byteChar b).toNat = byteToChar b :=
  Utf8.toNat_charOf (byteToChar_valid b)

theorem byteChar_ascii (h : b.toNat < 0x80) : (byteChar b).toNat = b.toNat := by
  rw [toNat_byteChar]
  rcases byteToChar_cases b with h' | ⟨h', -⟩
  · exact h'
  · omega

theorem le_byteToChar (h : 0x80 ≤ b.toNat) : 0x80 ≤ byteToChar b := by
  rcases byteToChar_cases b with h' | ⟨-, -, h', -⟩ <;> omega

end ParadoxCode.Transcode
