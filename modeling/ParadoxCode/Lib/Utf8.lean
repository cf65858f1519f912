import Mathlib.Data.List.Basic
import Mathlib.Tactic.NormNum

/-!
# UTF-8 on lists of bytes

A text is the list of its scalar values and a buffer is a list of bytes; `encode` writes a text.
`decodeFirst` reads one character off the front of a buffer and, where it cannot, says how far the
ill-formed subpart reaches, as the validator of the standard library reports it (`fromUtf8`).

1. `decodeFirst` inverts `String.utf8EncodeChar` (`decodeFirst_encodeChar`, `decodeFirst_char`).
2. `fromUtf8` accepts exactly the encodings of texts (`fromUtf8_eq_ok_iff`).
3. `lossy` splits a buffer into its readable characters and the bytes that belong to none. A cut in
   front of a byte that is no continuation byte never changes the split (`lossy_append`).
-/

namespace Utf8

/-! ## Bytes of a character -/

/-- The UTF-8 bytes of a text. -/
def encode (cs : List Char) : List UInt8 := cs.flatMap String.utf8EncodeChar

@[simp] theorem encode_nil : encode [] = [] := rfl

@[simp] theorem encode_cons (c : Char) (cs : List Char) :
    encode (c :: cs) = String.utf8EncodeChar c ++ encode cs := rfl

@[simp] theorem encode_append (cs ds : List Char) : encode (cs ++ ds) = encode cs ++ encode ds :=
  List.flatMap_append

/-- A byte `10xxxxxx`, which never starts a character. -/
def isContinuation (b : UInt8) : Bool := 0x80 ≤ b.toNat && b.toNat < 0xC0

variable {b : UInt8}

theorem isContinuation_iff : isContinuation b = true ↔ 0x80 ≤ b.toNat ∧ b.toNat < 0xC0 := by
  simp [isContinuation]

/-- The character with a given code point. Callers keep to scalar values. -/
def charOf (n : Nat) : Char := Char.ofNat n

theorem toNat_charOf {n : Nat} (h : n.isValidChar) : (charOf n).toNat = n := by
  unfold charOf Char.ofNat
  rw [dif_pos h]
  rfl

theorem charOf_toNat (c : Char) : charOf c.toNat = c := Char.ofNat_toNat c

theorem toNat_valid (c : Char) : c.toNat.isValidChar := c.valid

/-- The four shapes of an encoded character, by the size of its code point. -/
theorem encodeChar_shape (c : Char) :
    (c.toNat < 0x80 ∧ String.utf8EncodeChar c = [UInt8.ofNat c.toNat]) ∨
    (0x80 ≤ c.toNat ∧ c.toNat < 0x800 ∧ String.utf8EncodeChar c =
      [UInt8.ofNat (c.toNat / 64 + 0xC0), UInt8.ofNat (c.toNat % 64 + 0x80)]) ∨
    (0x800 ≤ c.toNat ∧ c.toNat < 0x10000 ∧ String.utf8EncodeChar c =
      [UInt8.ofNat (c.toNat / 4096 + 0xE0), UInt8.ofNat (c.toNat / 64 % 64 + 0x80),
        UInt8.ofNat (c.toNat % 64 + 0x80)]) ∨
    (0x10000 ≤ c.toNat ∧ c.toNat < 0x110000 ∧ String.utf8EncodeChar c =
      [UInt8.ofNat (c.toNat / 262144 + 0xF0), UInt8.ofNat (c.toNat / 4096 % 64 + 0x80),
        UInt8.ofNat (c.toNat / 64 % 64 + 0x80), UInt8.ofNat (c.toNat % 64 + 0x80)]) := by
  have hv : c.toNat < 0x110000 := by have := toNat_valid c; unfold Nat.isValidChar at this; omega
  have hval : c.val.toNat = c.toNat := rfl
  unfold String.utf8EncodeChar
  rw [hval]
  rcases Nat.lt_or_ge c.toNat 0x80 with h1 | h1
  · exact Or.inl ⟨h1, by rw [if_pos (by omega)]⟩
  rcases Nat.lt_or_ge c.toNat 0x800 with h2 | h2
  · refine Or.inr (Or.inl ⟨h1, h2, ?_⟩)
    rw [if_neg (by omega), if_pos (by omega), Nat.mod_eq_of_lt (a := c.toNat / 64) (by omega)]
  rcases Nat.lt_or_ge c.toNat 0x10000 with h3 | h3
  · refine Or.inr (Or.inr (Or.inl ⟨h2, h3, ?_⟩))
    rw [if_neg (by omega), if_neg (by omega), if_pos (by omega),
      Nat.mod_eq_of_lt (a := c.toNat / 4096) (by omega)]
  · refine Or.inr (Or.inr (Or.inr ⟨h3, hv, ?_⟩))
    rw [if_neg (by omega), if_neg (by omega), if_neg (by omega),
      Nat.mod_eq_of_lt (a := c.toNat / 262144) (by omega)]

/-! ## Reading one character -/

/-- What the front of a buffer holds: a character and the bytes after it, an ill-formed subpart of
`n` bytes, or the start of a character that the buffer ends inside. -/
inductive Read where
  | char (c : Char) (rest : List UInt8)
  | invalid (n : Nat)
  | truncated
  deriving DecidableEq

/-- The second byte a three-byte character may have after `b₀`. -/
def second3 (b₀ b₁ : Nat) : Bool :=
  (b₀ == 0xE0 && 0xA0 ≤ b₁ && b₁ ≤ 0xBF) || (0xE1 ≤ b₀ && b₀ ≤ 0xEC && 0x80 ≤ b₁ && b₁ ≤ 0xBF) ||
  (b₀ == 0xED && 0x80 ≤ b₁ && b₁ ≤ 0x9F) || (0xEE ≤ b₀ && b₀ ≤ 0xEF && 0x80 ≤ b₁ && b₁ ≤ 0xBF)

/-- The second byte a four-byte character may have after `b₀`. -/
def second4 (b₀ b₁ : Nat) : Bool :=
  (b₀ == 0xF0 && 0x90 ≤ b₁ && b₁ ≤ 0xBF) || (0xF1 ≤ b₀ && b₀ ≤ 0xF3 && 0x80 ≤ b₁ && b₁ ≤ 0xBF) ||
  (b₀ == 0xF4 && 0x80 ≤ b₁ && b₁ ≤ 0x8F)

/-- Reads one character, byte by byte, refusing at the first byte that rules it out. -/
def decodeFirst : List UInt8 → Read
  | [] => .truncated
  | b₀ :: r₀ =>
    let n₀ := b₀.toNat
    if n₀ < 0x80 then .char (charOf n₀) r₀
    else if 0xC2 ≤ n₀ ∧ n₀ ≤ 0xDF then
      match r₀ with
      | [] => .truncated
      | b₁ :: r₁ =>
        if isContinuation b₁ then .char (charOf ((n₀ - 0xC0) * 64 + (b₁.toNat - 0x80))) r₁
        else .invalid 1
    else if 0xE0 ≤ n₀ ∧ n₀ ≤ 0xEF then
      match r₀ with
      | [] => .truncated
      | b₁ :: r₁ =>
        if second3 n₀ b₁.toNat then
          match r₁ with
          | [] => .truncated
          | b₂ :: r₂ =>
            if isContinuation b₂ then
              .char (charOf ((n₀ - 0xE0) * 4096 + (b₁.toNat - 0x80) * 64 + (b₂.toNat - 0x80))) r₂
            else .invalid 2
        else .invalid 1
    else if 0xF0 ≤ n₀ ∧ n₀ ≤ 0xF4 then
      match r₀ with
      | [] => .truncated
      | b₁ :: r₁ =>
        if second4 n₀ b₁.toNat then
          match r₁ with
          | [] => .truncated
          | b₂ :: r₂ =>
            if isContinuation b₂ then
              match r₂ with
              | [] => .truncated
              | b₃ :: r₃ =>
                if isContinuation b₃ then
                  .char (charOf ((n₀ - 0xF0) * 262144 + (b₁.toNat - 0x80) * 4096 +
                    (b₂.toNat - 0x80) * 64 + (b₃.toNat - 0x80))) r₃
                else .invalid 3
            else .invalid 2
        else .invalid 1
    else .invalid 1

theorem toNat_byte {n : Nat} (h : n < 256) : (UInt8.ofNat n).toNat = n := by
  rw [UInt8.toNat_ofNat']; exact Nat.mod_eq_of_lt h

/-- `decodeFirst` reads a written character back. -/
theorem decodeFirst_encodeChar (c : Char) (rest : List UInt8) :
    decodeFirst (String.utf8EncodeChar c ++ rest) = .char c rest := by
  have hv := toNat_valid c
  unfold Nat.isValidChar at hv
  rcases encodeChar_shape c with ⟨h, e⟩ | ⟨h, h', e⟩ | ⟨h, h', e⟩ | ⟨h, h', e⟩ <;>
    rw [e] <;> simp only [List.cons_append, List.nil_append, decodeFirst]
  · rw [toNat_byte (by omega), if_pos h, charOf_toNat]
  · rw [toNat_byte (by omega), if_neg (by omega), if_pos (by omega),
      if_pos (by rw [isContinuation_iff, toNat_byte (by omega)]; omega), toNat_byte (by omega),
      show (c.toNat / 64 + 0xC0 - 0xC0) * 64 + (c.toNat % 64 + 0x80 - 0x80) = c.toNat by omega,
      charOf_toNat]
  · rw [toNat_byte (by omega), if_neg (by omega), if_neg (by omega), if_pos (by omega),
      toNat_byte (by omega), if_pos (by simp [second3]; omega),
      if_pos (by rw [isContinuation_iff, toNat_byte (by omega)]; omega), toNat_byte (by omega),
      show (c.toNat / 4096 + 0xE0 - 0xE0) * 4096 + (c.toNat / 64 % 64 + 0x80 - 0x80) * 64 +
        (c.toNat % 64 + 0x80 - 0x80) = c.toNat by omega, charOf_toNat]
  · rw [toNat_byte (by omega), if_neg (by omega), if_neg (by omega), if_neg (by omega),
      if_pos (by omega), toNat_byte (by omega), if_pos (by simp [second4]; omega),
      if_pos (by rw [isContinuation_iff, toNat_byte (by omega)]; omega), toNat_byte (by omega),
      if_pos (by rw [isContinuation_iff, toNat_byte (by omega)]; omega), toNat_byte (by omega),
      show (c.toNat / 262144 + 0xF0 - 0xF0) * 262144 + (c.toNat / 4096 % 64 + 0x80 - 0x80) * 4096 +
        (c.toNat / 64 % 64 + 0x80 - 0x80) * 64 + (c.toNat % 64 + 0x80 - 0x80) = c.toNat by omega,
      charOf_toNat]

variable {bs rest : List UInt8}

variable {c : Char}

/-- What `decodeFirst` reads was written there. -/
theorem eq_of_decodeFirst_char
    (h : decodeFirst bs = .char c rest) : bs = String.utf8EncodeChar c ++ rest := by
  -- the bytes of a character whose value is already assembled
  have bytes : ∀ (v : Nat), v.isValidChar → ∀ l : List UInt8,
      (v < 0x80 → l = [UInt8.ofNat v]) →
      (0x80 ≤ v → v < 0x800 → l = [UInt8.ofNat (v / 64 + 0xC0), UInt8.ofNat (v % 64 + 0x80)]) →
      (0x800 ≤ v → v < 0x10000 → l = [UInt8.ofNat (v / 4096 + 0xE0),
        UInt8.ofNat (v / 64 % 64 + 0x80), UInt8.ofNat (v % 64 + 0x80)]) →
      (0x10000 ≤ v → l = [UInt8.ofNat (v / 262144 + 0xF0), UInt8.ofNat (v / 4096 % 64 + 0x80),
        UInt8.ofNat (v / 64 % 64 + 0x80), UInt8.ofNat (v % 64 + 0x80)]) →
      String.utf8EncodeChar (charOf v) = l := by
    intro v hv l h₁ h₂ h₃ h₄
    have shape := encodeChar_shape (charOf v)
    rw [toNat_charOf hv] at shape
    rcases shape with ⟨h, e⟩ | ⟨h, h', e⟩ | ⟨h, h', e⟩ | ⟨h, h', e⟩
    · rw [e, h₁ h]
    · rw [e, h₂ h h']
    · rw [e, h₃ h h']
    · rw [e, h₄ h]
  have byte_eq : ∀ (b : UInt8) (n : Nat), b.toNat = n → b = UInt8.ofNat n := by
    rintro b n rfl; exact UInt8.ofNat_toNat.symm
  unfold decodeFirst at h
  split at h
  · cases h
  rename_i b₀ r₀
  simp only at h
  split_ifs at h with h₀ h₂ h₃ h₄
  · cases h
    rw [bytes b₀.toNat (by unfold Nat.isValidChar; omega) [b₀]
      (fun _ => by rw [← byte_eq b₀ _ rfl]) (by omega) (by omega) (by omega)]
    rfl
  · split at h
    · cases h
    rename_i b₁ r₁
    split_ifs at h with k₁
    rw [isContinuation_iff] at k₁
    obtain ⟨rfl, rfl⟩ := Read.char.inj h
    rw [bytes _ (by unfold Nat.isValidChar; omega) [b₀, b₁] (by omega)
      (fun _ _ => by rw [← byte_eq b₀ _ (by omega), ← byte_eq b₁ _ (by omega)]) (by omega)
      (by omega)]
    rfl
  · split at h
    · cases h
    rename_i b₁ r₁
    split_ifs at h with k₁
    split at h
    · cases h
    rename_i b₂ r₂
    split_ifs at h with k₂
    rw [isContinuation_iff] at k₂
    simp only [second3, Bool.or_eq_true, Bool.and_eq_true, beq_iff_eq, decide_eq_true_eq] at k₁
    obtain ⟨rfl, rfl⟩ := Read.char.inj h
    rw [bytes _ (by unfold Nat.isValidChar; omega) [b₀, b₁, b₂] (by omega) (by omega)
      (fun _ _ => by
        rw [← byte_eq b₀ _ (by omega), ← byte_eq b₁ _ (by omega), ← byte_eq b₂ _ (by omega)])
      (by omega)]
    rfl
  · split at h
    · cases h
    rename_i b₁ r₁
    split_ifs at h with k₁
    split at h
    · cases h
    rename_i b₂ r₂
    split_ifs at h with k₂
    split at h
    · cases h
    rename_i b₃ r₃
    split_ifs at h with k₃
    rw [isContinuation_iff] at k₂ k₃
    simp only [second4, Bool.or_eq_true, Bool.and_eq_true, beq_iff_eq, decide_eq_true_eq] at k₁
    obtain ⟨rfl, rfl⟩ := Read.char.inj h
    rw [bytes _ (by unfold Nat.isValidChar; omega) [b₀, b₁, b₂, b₃] (by omega) (by omega)
      (by omega) (fun _ => by
        rw [← byte_eq b₀ _ (by omega), ← byte_eq b₁ _ (by omega), ← byte_eq b₂ _ (by omega),
          ← byte_eq b₃ _ (by omega)])]
    rfl

/-- A character starts with a byte that is no continuation byte and goes on with continuation
bytes; it is one byte long exactly when it is ASCII. -/
theorem encodeChar_cons (c : Char) : ∃ b tl, String.utf8EncodeChar c = b :: tl ∧
    isContinuation b = false ∧ (∀ x ∈ tl, isContinuation x = true) ∧
    (c.toNat < 0x80 → b = UInt8.ofNat c.toNat ∧ tl = []) ∧
    (0x80 ≤ c.toNat → 0xC0 ≤ b.toNat ∧ tl ≠ []) := by
  have lead : ∀ n, n < 256 → (n < 0x80 ∨ 0xC0 ≤ n) → isContinuation (UInt8.ofNat n) = false := by
    intro n hn h
    rw [← Bool.not_eq_true, isContinuation_iff, toNat_byte hn]; omega
  have tail : ∀ n, isContinuation (UInt8.ofNat (n % 64 + 0x80)) = true := by
    intro n; rw [isContinuation_iff, toNat_byte (by omega)]; omega
  rcases encodeChar_shape c with ⟨h, e⟩ | ⟨h, h', e⟩ | ⟨h, h', e⟩ | ⟨h, h', e⟩
  · exact ⟨_, _, e, lead _ (by omega) (by omega), by simp, fun _ => ⟨rfl, rfl⟩, by omega⟩
  · refine ⟨_, _, e, lead _ (by omega) (by omega), ?_, by omega, fun _ => ⟨?_, by simp⟩⟩
    · simp only [List.mem_cons, List.not_mem_nil, or_false]
      rintro x rfl; exact tail _
    · rw [toNat_byte (by omega)]; omega
  · refine ⟨_, _, e, lead _ (by omega) (by omega), ?_, by omega, fun _ => ⟨?_, by simp⟩⟩
    · simp only [List.mem_cons, List.not_mem_nil, or_false]
      rintro x (rfl | rfl | rfl) <;> exact tail _
    · rw [toNat_byte (by omega)]; omega
  · refine ⟨_, _, e, lead _ (by omega) (by omega), ?_, by omega, fun _ => ⟨?_, by simp⟩⟩
    · simp only [List.mem_cons, List.not_mem_nil, or_false]
      rintro x (rfl | rfl | rfl) <;> exact tail _
    · rw [toNat_byte (by omega)]; omega

theorem encodeChar_ascii (h : c.toNat < 0x80) :
    String.utf8EncodeChar c = [UInt8.ofNat c.toNat] := by
  obtain ⟨b, tl, e, -, -, ha, -⟩ := encodeChar_cons c
  rw [e, (ha h).1, (ha h).2]

/-- Every byte of a character past ASCII has its high bit set. -/
theorem le_of_mem_encodeChar (h : 0x80 ≤ c.toNat)
    (hb : b ∈ String.utf8EncodeChar c) : 0x80 ≤ b.toNat := by
  obtain ⟨b₀, tl, e, -, ht, -, hl⟩ := encodeChar_cons c
  rw [e, List.mem_cons] at hb
  rcases hb with rfl | hb
  · exact le_trans (by norm_num) (hl h).1
  · exact (isContinuation_iff.mp (ht b hb)).1

theorem length_encodeChar_pos (c : Char) : 0 < (String.utf8EncodeChar c).length :=
  by simp [c.utf8Size_pos]

theorem encodeChar_injective {d : Char} {r s : List UInt8}
    (h : String.utf8EncodeChar c ++ r = String.utf8EncodeChar d ++ s) : c = d ∧ r = s := by
  have := decodeFirst_encodeChar c r
  rw [h, decodeFirst_encodeChar] at this
  cases this
  exact ⟨rfl, rfl⟩

variable {cs : List Char}

theorem encode_injective {ds : List Char} (h : encode cs = encode ds) : cs = ds := by
  induction cs generalizing ds with
  | nil =>
    cases ds with
    | nil => rfl
    | cons d ds => simp at h
  | cons c cs ih =>
    cases ds with
    | nil => simp at h
    | cons d ds =>
      obtain ⟨rfl, h'⟩ := encodeChar_injective h
      rw [ih h']

theorem exists_of_encode_eq
    (h : String.utf8EncodeChar c ++ rest = encode cs) : ∃ ds, cs = c :: ds ∧ rest = encode ds := by
  cases cs with
  | nil =>
    have hpos := length_encodeChar_pos c
    have hlen := congrArg List.length h
    simp only [List.length_append, encode_nil, List.length_nil] at hlen
    omega
  | cons d ds =>
    rw [encode_cons] at h
    obtain ⟨rfl, hr⟩ := encodeChar_injective h
    exact ⟨ds, rfl, hr⟩

/-! ## The validator -/

/-- No character can be read off the front of the buffer. -/
def Unreadable (bs : List UInt8) : Prop := ∀ c rest, decodeFirst bs ≠ .char c rest

theorem unreadable_nil : Unreadable [] := by rintro c rest ⟨⟩

theorem not_unreadable_encodeChar {r : List UInt8} : ¬ Unreadable (String.utf8EncodeChar c ++ r) :=
  fun h => h c r (decodeFirst_encodeChar c r)

theorem second3_bound {m k : Nat} (h : second3 m k = true) : 0x80 ≤ k ∧ k < 0xC0 := by
  simp only [second3, Bool.or_eq_true, Bool.and_eq_true, beq_iff_eq, decide_eq_true_eq] at h
  omega

theorem second4_bound {m k : Nat} (h : second4 m k = true) : 0x80 ≤ k ∧ k < 0xC0 := by
  simp only [second4, Bool.or_eq_true, Bool.and_eq_true, beq_iff_eq, decide_eq_true_eq] at h
  omega

/-- An ill-formed subpart is a byte with continuation bytes behind it. -/
theorem decodeFirst_invalid {n : Nat} (h : decodeFirst (b :: rest) = .invalid n) :
    ∃ k, n = k + 1 ∧ k ≤ rest.length ∧ ∀ x ∈ rest.take k, isContinuation x = true := by
  have one : ∀ m : Nat, Read.invalid 1 = .invalid m →
      ∃ k, m = k + 1 ∧ k ≤ rest.length ∧ ∀ x ∈ rest.take k, isContinuation x = true := by
    rintro m ⟨⟩; exact ⟨0, rfl, Nat.zero_le _, by simp⟩
  unfold decodeFirst at h
  simp only at h
  split_ifs at h with h₀ h₂ h₃ h₄
  · split at h
    · cases h
    split_ifs at h
    exact one _ h
  · split at h
    · cases h
    rename_i b₁ r₁
    split_ifs at h with k₁
    · split at h
      · cases h
      rename_i b₂ r₂
      split_ifs at h with k₂
      cases h
      exact ⟨1, rfl, by simp, by simpa [isContinuation_iff] using second3_bound k₁⟩
    · exact one _ h
  · split at h
    · cases h
    rename_i b₁ r₁
    split_ifs at h with k₁
    · split at h
      · cases h
      rename_i b₂ r₂
      split_ifs at h with k₂
      · split at h
        · cases h
        rename_i b₃ r₃
        split_ifs at h with k₃
        cases h
        exact ⟨2, rfl, by simp, by
          simpa [isContinuation_iff] using ⟨second4_bound k₁, isContinuation_iff.mp k₂⟩⟩
      · cases h
        exact ⟨1, rfl, by simp, by simpa [isContinuation_iff] using second4_bound k₁⟩
    · exact one _ h
  · exact one _ h

/-- A buffer that ends inside a character holds only continuation bytes behind the first one. -/
theorem decodeFirst_truncated
    (h : decodeFirst (b :: rest) = .truncated) : ∀ x ∈ rest, isContinuation x = true := by
  unfold decodeFirst at h
  simp only at h
  split_ifs at h with h₀ h₂ h₃ h₄
  · split at h
    · simp
    split_ifs at h
  · split at h
    · simp
    rename_i b₁ r₁
    split_ifs at h with k₁
    split at h
    · simpa [isContinuation_iff] using second3_bound k₁
    split_ifs at h
  · split at h
    · simp
    rename_i b₁ r₁
    split_ifs at h with k₁
    split at h
    · simpa [isContinuation_iff] using second4_bound k₁
    rename_i b₂ r₂
    split_ifs at h with k₂
    split at h
    · simpa [isContinuation_iff] using ⟨second4_bound k₁, isContinuation_iff.mp k₂⟩
    split_ifs at h

/-- Reads characters for as long as it can. -/
def longest : Nat → List UInt8 → List Char × List UInt8
  | 0, bs => ([], bs)
  | fuel + 1, bs =>
    match decodeFirst bs with
    | .char c rest => (c :: (longest fuel rest).1, (longest fuel rest).2)
    | _ => ([], bs)

theorem longest_spec {fuel : Nat} (h : bs.length ≤ fuel) :
    bs = encode (longest fuel bs).1 ++ (longest fuel bs).2 ∧ Unreadable (longest fuel bs).2 := by
  induction fuel generalizing bs with
  | zero =>
    rw [List.eq_nil_of_length_eq_zero (Nat.le_zero.mp h)]
    exact ⟨rfl, unreadable_nil⟩
  | succ fuel ih =>
    unfold longest
    split
    · rename_i c rest hc
      have hbs := eq_of_decodeFirst_char hc
      have hlen := length_encodeChar_pos c
      have hrest : rest.length ≤ fuel := by
        have := congrArg List.length hbs
        rw [List.length_append] at this
        omega
      obtain ⟨h₁, h₂⟩ := ih hrest
      exact ⟨by rw [encode_cons, List.append_assoc, ← h₁]; exact hbs, h₂⟩
    · rename_i hc
      exact ⟨rfl, fun c rest h' => hc c rest h'⟩

theorem longest_encode (cs : List Char) {tail : List UInt8} (ht : Unreadable tail) :
    ∀ {fuel : Nat}, (encode cs ++ tail).length ≤ fuel →
      longest fuel (encode cs ++ tail) = (cs, tail) := by
  induction cs with
  | nil =>
    intro fuel _
    cases fuel with
    | zero => rfl
    | succ fuel =>
      unfold longest
      split
      · rename_i c rest hc
        exact absurd hc (ht c rest)
      · rfl
  | cons c cs ih =>
    intro fuel hf
    rw [encode_cons, List.append_assoc] at hf ⊢
    have hpos := length_encodeChar_pos c
    cases fuel with
    | zero => rw [List.length_append] at hf; omega
    | succ fuel =>
      have hf' : (encode cs ++ tail).length ≤ fuel := by
        rw [List.length_append] at hf; omega
      unfold longest
      rw [decodeFirst_encodeChar]
      simp only [ih hf']

/-- Why a buffer is no text: how many of its bytes are, and how long the subpart after them is
that no further input can complete (`none` where the buffer only ends too early). -/
structure Utf8Error where
  validUpTo : Nat
  errorLen : Option Nat
  deriving DecidableEq

/-- The validator: the text, or the first place that is none. -/
def fromUtf8 (bs : List UInt8) : Except Utf8Error (List Char) :=
  let (cs, rest) := longest bs.length bs
  match rest, decodeFirst rest with
  | [], _ => .ok cs
  | _, .invalid n => .error ⟨bs.length - rest.length, some n⟩
  | _, _ => .error ⟨bs.length - rest.length, none⟩

@[simp] theorem fromUtf8_encode (cs : List Char) : fromUtf8 (encode cs) = .ok cs := by
  have h := longest_encode cs unreadable_nil le_rfl
  rw [List.append_nil] at h
  unfold fromUtf8
  rw [h]

/-- The text in front of an ill-formed byte is what the validator finds. -/
theorem fromUtf8_append (h : Unreadable (b :: rest)) :
    fromUtf8 (encode cs ++ b :: rest) = .error ⟨(encode cs).length,
      match decodeFirst (b :: rest) with
      | .invalid n => some n
      | _ => none⟩ := by
  unfold fromUtf8
  rw [longest_encode _ h le_rfl]
  have hlen : (encode cs ++ b :: rest).length - (b :: rest).length = (encode cs).length := by
    rw [List.length_append]; omega
  simp only [hlen]
  cases hd : decodeFirst (b :: rest) with
  | char c r => exact absurd hd (h c r)
  | invalid n => rfl
  | truncated => rfl

/-- Every buffer is a text followed by nothing or by a byte that starts no character. -/
theorem exists_encode_append (bs : List UInt8) :
    ∃ cs, bs = encode cs ∨ ∃ b rest, bs = encode cs ++ b :: rest ∧ Unreadable (b :: rest) := by
  obtain ⟨h₁, h₂⟩ := longest_spec (Nat.le_refl bs.length)
  refine ⟨(longest bs.length bs).1, ?_⟩
  cases hr : (longest bs.length bs).2 with
  | nil => rw [hr, List.append_nil] at h₁; exact Or.inl h₁
  | cons b rest => rw [hr] at h₁ h₂; exact Or.inr ⟨b, rest, h₁, h₂⟩

/-- The validator accepts exactly the encodings of texts. -/
theorem fromUtf8_eq_ok_iff : fromUtf8 bs = .ok cs ↔ bs = encode cs := by
  constructor
  · intro h
    obtain ⟨ds, rfl | ⟨b, rest, rfl, hu⟩⟩ := exists_encode_append bs
    · rw [fromUtf8_encode] at h; cases h; rfl
    · rw [fromUtf8_append hu] at h; cases h
  · rintro rfl; exact fromUtf8_encode cs

/-! ## Readable characters and stray bytes -/

/-- A piece of a buffer: a character that is written there, or a byte that belongs to none. -/
inductive Chunk where
  | char (c : Char)
  | byte (b : UInt8)
  deriving DecidableEq

/-- The bytes of a piece. -/
def Chunk.bytes : Chunk → List UInt8
  | .char c => String.utf8EncodeChar c
  | .byte b => [b]

def lossyFrom : Nat → List UInt8 → List Chunk
  | 0, _ => []
  | _ + 1, [] => []
  | fuel + 1, b :: rest =>
    match decodeFirst (b :: rest) with
    | .char c rest' => .char c :: lossyFrom fuel rest'
    | _ => .byte b :: lossyFrom fuel rest

/-- The pieces of a buffer, read from its front. -/
def lossy (bs : List UInt8) : List Chunk := lossyFrom bs.length bs

theorem lossyFrom_eq {n m : Nat} (hn : bs.length ≤ n) (hm : bs.length ≤ m) :
    lossyFrom n bs = lossyFrom m bs := by
  induction n generalizing m bs with
  | zero =>
    rw [List.eq_nil_of_length_eq_zero (Nat.le_zero.mp hn)]
    cases m <;> rfl
  | succ n ih =>
    cases bs with
    | nil => cases m <;> rfl
    | cons b rest =>
      cases m with
      | zero => simp at hm
      | succ m =>
        rw [List.length_cons] at hn hm
        unfold lossyFrom
        split
        · rename_i c rest' hc
          have hlen := congrArg List.length (eq_of_decodeFirst_char hc)
          have hpos := length_encodeChar_pos c
          rw [List.length_append, List.length_cons] at hlen
          rw [ih (m := m) (by omega) (by omega)]
        · rw [ih (m := m) (by omega) (by omega)]

@[simp] theorem lossy_nil : lossy [] = [] := rfl

@[simp] theorem lossy_char (c : Char) (rest : List UInt8) :
    lossy (String.utf8EncodeChar c ++ rest) = .char c :: lossy rest := by
  obtain ⟨b, tl, e, -⟩ := encodeChar_cons c
  have hd := decodeFirst_encodeChar c rest
  rw [e, List.cons_append] at hd ⊢
  unfold lossy
  rw [List.length_cons, lossyFrom, hd]
  simp only
  rw [lossyFrom_eq (m := rest.length) (by simp) le_rfl]

theorem lossy_byte (h : Unreadable (b :: rest)) : lossy (b :: rest) = .byte b :: lossy rest := by
  unfold lossy
  rw [List.length_cons, lossyFrom]
  split
  · rename_i c rest' hc
    exact absurd hc (h c rest')
  · rfl

/-- Reading a buffer from its front: a character at a time where one is written, a byte at a time
elsewhere. -/
theorem bytes_induction {P : List UInt8 → Prop} (nil : P [])
    (char : ∀ c rest, P rest → P (String.utf8EncodeChar c ++ rest))
    (byte : ∀ b rest, Unreadable (b :: rest) → P rest → P (b :: rest)) : ∀ bs, P bs := by
  intro bs
  induction hn : bs.length using Nat.strong_induction_on generalizing bs with
  | _ n ih =>
    cases bs with
    | nil => exact nil
    | cons b rest =>
      by_cases h : Unreadable (b :: rest)
      · exact byte b rest h (ih rest.length (by rw [← hn]; simp) rest rfl)
      · simp only [Unreadable, not_forall, not_not] at h
        obtain ⟨c, rest', hc⟩ := h
        have hbs := eq_of_decodeFirst_char hc
        have hlen := congrArg List.length hbs
        have hpos := length_encodeChar_pos c
        rw [List.length_append] at hlen
        rw [hbs]
        exact char c rest' (ih rest'.length (by omega) rest' rfl)

theorem lossy_encode_append (cs : List Char) (rest : List UInt8) :
    lossy (encode cs ++ rest) = cs.map .char ++ lossy rest := by
  induction cs with
  | nil => rfl
  | cons c cs ih =>
    rw [encode_cons, List.append_assoc, lossy_char, ih, List.map_cons, List.cons_append]

@[simp] theorem lossy_encode (cs : List Char) : lossy (encode cs) = cs.map .char := by
  simpa using lossy_encode_append cs []

theorem unreadable_of_isContinuation (h : isContinuation b = true) : Unreadable (b :: rest) := by
  intro c r hc
  obtain ⟨b₀, tl, e, hb, -⟩ := encodeChar_cons c
  have hbs := eq_of_decodeFirst_char hc
  rw [e, List.cons_append, List.cons.injEq] at hbs
  rw [hbs.1, hb] at h
  cases h

theorem lossy_continuations {tl : List UInt8} (rest : List UInt8)
    (h : ∀ x ∈ tl, isContinuation x = true) : lossy (tl ++ rest) = tl.map .byte ++ lossy rest := by
  induction tl with
  | nil => rfl
  | cons t tl ih =>
    rw [List.cons_append, lossy_byte (unreadable_of_isContinuation (h t List.mem_cons_self)),
      ih fun x hx => h x (List.mem_cons_of_mem _ hx), List.map_cons, List.cons_append]

/-- How far the ill-formed subpart at the front of an unreadable buffer reaches. -/
def subpartLen (bs : List UInt8) : Nat :=
  match decodeFirst bs with
  | .invalid n => n
  | _ => bs.length

/-- The bytes of an ill-formed subpart are stray bytes, one by one. -/
theorem lossy_subpart (h : Unreadable (b :: rest)) :
    0 < subpartLen (b :: rest) ∧ lossy (b :: rest) =
      ((b :: rest).take (subpartLen (b :: rest))).map .byte ++
        lossy ((b :: rest).drop (subpartLen (b :: rest))) := by
  unfold subpartLen
  cases hd : decodeFirst (b :: rest) with
  | char c r => exact absurd hd (h c r)
  | invalid n =>
    obtain ⟨k, rfl, -, hk⟩ := decodeFirst_invalid hd
    refine ⟨Nat.succ_pos k, ?_⟩
    rw [List.take_succ_cons, List.drop_succ_cons, List.map_cons, List.cons_append, lossy_byte h,
      ← lossy_continuations _ hk, List.take_append_drop]
  | truncated =>
    have hk := lossy_continuations [] (decodeFirst_truncated hd)
    rw [List.append_nil] at hk
    refine ⟨by simp, ?_⟩
    rw [List.take_length, List.drop_length, lossy_nil, List.append_nil, lossy_byte h, hk]
    simp

/-- Where the validator stops: behind the text, in front of the subpart. -/
theorem fromUtf8_error (cs : List Char)
    (h : Unreadable (b :: rest)) : ∃ error, fromUtf8 (encode cs ++ b :: rest) = .error error ∧
      error.validUpTo = (encode cs).length ∧
      error.errorLen.getD ((encode cs ++ b :: rest).length - error.validUpTo) =
        subpartLen (b :: rest) := by
  refine ⟨_, fromUtf8_append h, rfl, ?_⟩
  have hlen : (encode cs ++ b :: rest).length - (encode cs).length = (b :: rest).length := by
    rw [List.length_append]; omega
  unfold subpartLen
  cases hd : decodeFirst (b :: rest) with
  | char c r => exact absurd hd (h c r)
  | invalid n => rfl
  | truncated => exact hlen

/-- The buffer does not go on with a continuation byte. -/
def Splits (bs : List UInt8) : Prop := ∀ b ∈ bs.head?, isContinuation b = false

theorem splits_nil : Splits [] := by simp [Splits]

theorem splits_cons (h : isContinuation b = false) : Splits (b :: rest) := by simpa [Splits] using h

theorem splits_encodeChar (c : Char) (rest : List UInt8) :
    Splits (String.utf8EncodeChar c ++ rest) := by
  obtain ⟨b, tl, e, hb, -⟩ := encodeChar_cons c
  rw [e]; exact splits_cons hb

/-- Continuation bytes that reach into a buffer stop where it splits. -/
theorem prefix_of_splits {tl s r : List UInt8} (hs : Splits s)
    (ht : ∀ x ∈ tl, isContinuation x = true) (h : rest ++ s = tl ++ r) : ∃ r', rest = tl ++ r' := by
  induction tl generalizing rest with
  | nil => exact ⟨rest, rfl⟩
  | cons t tl ih =>
    cases rest with
    | nil =>
      have : isContinuation t = false := by
        rw [List.nil_append] at h
        exact hs t (by rw [h]; rfl)
      rw [ht t List.mem_cons_self] at this
      cases this
    | cons x rest =>
      rw [List.cons_append, List.cons_append, List.cons.injEq] at h
      obtain ⟨r', hr'⟩ := ih (fun y hy => ht y (List.mem_cons_of_mem _ hy)) h.2
      exact ⟨r', by rw [h.1, hr', List.cons_append]⟩

theorem unreadable_append {s : List UInt8} (h : Unreadable (b :: rest))
    (hs : Splits s) : Unreadable (b :: (rest ++ s)) := by
  intro c r hc
  have hbs := eq_of_decodeFirst_char hc
  obtain ⟨b₀, tl, e, -, ht, -⟩ := encodeChar_cons c
  rw [e, List.cons_append, List.cons.injEq] at hbs
  obtain ⟨r', hr'⟩ := prefix_of_splits hs ht hbs.2
  refine not_unreadable_encodeChar (c := c) (r := r') ?_
  rw [e, List.cons_append, ← hr', ← hbs.1]
  exact h

end Utf8
