import ParadoxCode.Lib.Utf8

/-!
# Offsets and ranges

The text crate. A source is the list of its scalar values, `sourceBytes` are its bytes and offsets
count bytes. A `TextSize` is a `u32`: the model keeps the number and writes every conversion to
`u32` where the source has it.
-/

namespace ParadoxCode

/-- A string as the list of its characters. -/
abbrev Str := List Char

instance : LawfulBEq Str := List.instLawfulBEq

/-- `char::is_whitespace`: the White_Space characters of Unicode. -/
def isWhitespace (c : Char) : Bool :=
  (0x09 ≤ c.toNat && c.toNat ≤ 0x0D) || c.toNat == 0x20 || c.toNat == 0x85 || c.toNat == 0xA0 ||
    c.toNat == 0x1680 || (0x2000 ≤ c.toNat && c.toNat ≤ 0x200A) || c.toNat == 0x2028 ||
    c.toNat == 0x2029 || c.toNat == 0x202F || c.toNat == 0x205F || c.toNat == 0x3000

/-- `str::trim`. -/
def trim (text : Str) : Str :=
  ((text.dropWhile isWhitespace).reverse.dropWhile isWhitespace).reverse

/-- `text.strip_prefix('"').and_then(|rest| rest.strip_suffix('"')).unwrap_or(text)`. -/
def unquote (text : Str) : Str :=
  match text with
  | '"' :: rest => if rest.getLast? = some '"' then rest.dropLast else text
  | _ => text

/-- `str::to_ascii_lowercase`. -/
def toAsciiLowercase (text : Str) : Str := text.map Char.toLower

/-- `u32::MAX`. -/
def u32Max : Nat := 0xFFFFFFFF

/-- `u32::try_from`. -/
def tryU32 (n : Nat) : Option Nat := if n ≤ u32Max then some n else none

/-- `as u32`. -/
def asU32 (n : Nat) : Nat := n % 2 ^ 32

theorem tryU32_eq_some_iff {n m : Nat} : tryU32 n = some m ↔ n ≤ u32Max ∧ n = m := by
  unfold tryU32
  split_ifs with h <;> simp [h]

/-- A half-open byte range. -/
structure TextRange where
  start : Nat
  stop : Nat
  le : start ≤ stop
  deriving DecidableEq

/-- `TextRange::new`. -/
def TextRange.new (start stop : Nat) : Option TextRange :=
  if h : start ≤ stop then some ⟨start, stop, h⟩ else none

/-- The derived order of ranges. -/
def TextRange.Precedes (left right : TextRange) : Prop :=
  left.start < right.start ∨ left.start = right.start ∧ left.stop < right.stop

theorem TextRange.Precedes.trans {a b c : TextRange} (hab : a.Precedes b) (hbc : b.Precedes c) :
    a.Precedes c := by
  unfold Precedes at *
  omega

/-- `TextRange::empty`. -/
def TextRange.empty (offset : Nat) : TextRange := ⟨offset, offset, le_rfl⟩

/-- The `len` bytes from `start` on. -/
abbrev TextRange.sized (start len : Nat) : TextRange :=
  ⟨start, start + len, Nat.le_add_right start len⟩

/-- `str::len`. -/
def byteLen (source : List Char) : Nat := (Utf8.encode source).length

/-- The bytes of `source` between two offsets. -/
def sliceBytes (source : List Char) (start stop : Nat) : List UInt8 :=
  ((Utf8.encode source).drop start).take (stop - start)

@[simp] theorem byteLen_nil : byteLen [] = 0 := rfl

@[simp] theorem byteLen_cons (c : Char) (cs : List Char) :
    byteLen (c :: cs) = c.utf8Size + byteLen cs := by
  simp [byteLen]

@[simp] theorem byteLen_append (cs ds : List Char) :
    byteLen (cs ++ ds) = byteLen cs + byteLen ds := by
  simp [byteLen]

/-- The bytes between two texts are found between their lengths. -/
theorem sliceBytes_append (before window after : List Char) :
    sliceBytes (before ++ window ++ after) (byteLen before) (byteLen before + byteLen window) =
      Utf8.encode window := by
  unfold sliceBytes byteLen
  rw [Utf8.encode_append, Utf8.encode_append, List.append_assoc, List.drop_left,
    Nat.add_sub_cancel_left, List.take_left]

/-! ## Character boundaries -/

/-- `str::is_char_boundary`. -/
def isCharBoundary (source : List Char) (index : Nat) : Bool :=
  index == 0 ||
    match (Utf8.encode source)[index]? with
    | some byte => !Utf8.isContinuation byte
    | none => index == byteLen source

/-- `index` is the length of some leading characters of the source. -/
def Boundary (source : List Char) (index : Nat) : Prop :=
  ∃ before after, source = before ++ after ∧ byteLen before = index

theorem Boundary.zero (source : List Char) : Boundary source 0 := ⟨[], source, rfl, rfl⟩

theorem Boundary.end (source : List Char) : Boundary source (byteLen source) :=
  ⟨source, [], (List.append_nil _).symm, rfl⟩

variable {source : List Char}

theorem Boundary.le {index : Nat} (h : Boundary source index) : index ≤ byteLen source := by
  obtain ⟨before, after, rfl, rfl⟩ := h
  rw [byteLen_append]
  exact Nat.le_add_right _ _

/-- The bytes from a boundary on are the encoding of the characters behind it. -/
theorem Boundary.drop {source : List Char} {index : Nat} (h : Boundary source index) :
    ∃ after, (Utf8.encode source).drop index = Utf8.encode after := by
  obtain ⟨before, after, rfl, rfl⟩ := h
  exact ⟨after, by rw [Utf8.encode_append]; exact List.drop_left⟩

/-- Behind a boundary, the end of the next character is a boundary. -/
theorem Boundary.next {index : Nat} (h : Boundary source index) {c : Char} {rest : List UInt8}
    (hc : (Utf8.encode source).drop index = String.utf8EncodeChar c ++ rest) :
    Boundary source (index + c.utf8Size) := by
  obtain ⟨before, after, rfl, rfl⟩ := h
  rw [Utf8.encode_append, byteLen, List.drop_left] at hc
  obtain ⟨ds, rfl, -⟩ := Utf8.exists_of_encode_eq hc.symm
  exact ⟨before ++ [c], ds, by simp, by simp⟩

/-- A byte that continues no character starts one. -/
theorem boundary_of_getElem? {index : Nat} {byte : UInt8}
    (h : (Utf8.encode source)[index]? = some byte) (hb : Utf8.isContinuation byte = false) :
    Boundary source index := by
  induction source generalizing index with
  | nil => simp at h
  | cons c source ih =>
    obtain ⟨b, tl, e, -, htl, -⟩ := Utf8.encodeChar_cons c
    rw [Utf8.encode_cons] at h
    rcases Nat.lt_or_ge index (String.utf8EncodeChar c).length with hlt | hge
    · rw [List.getElem?_append_left hlt, e] at h
      cases index with
      | zero => exact Boundary.zero _
      | succ index =>
        rw [List.getElem?_cons_succ] at h
        rw [htl byte (List.mem_of_getElem? h)] at hb
        cases hb
    · rw [List.getElem?_append_right hge] at h
      obtain ⟨before, after, rfl, hlen⟩ := ih h
      refine ⟨c :: before, after, rfl, ?_⟩
      rw [byteLen_cons, hlen, ← String.length_utf8EncodeChar]
      omega

theorem isCharBoundary_iff {index : Nat} :
    isCharBoundary source index = true ↔ Boundary source index := by
  unfold isCharBoundary
  rw [Bool.or_eq_true, beq_iff_eq]
  constructor
  · rintro (rfl | h)
    · exact Boundary.zero _
    · split at h
      · rename_i byte hbyte
        exact boundary_of_getElem? hbyte (by simpa using h)
      · rw [beq_iff_eq] at h
        rw [h]
        exact Boundary.end _
  · rintro ⟨before, after, rfl, rfl⟩
    right
    cases after with
    | nil => simp [byteLen]
    | cons c after =>
      obtain ⟨b, tl, e, hb, -⟩ := Utf8.encodeChar_cons c
      have hget : (Utf8.encode (before ++ c :: after))[byteLen before]? = some b := by
        rw [Utf8.encode_append, byteLen, List.getElem?_append_right le_rfl, Nat.sub_self,
          Utf8.encode_cons, e]
        rfl
      rw [hget]
      simpa using hb

/-- `str::get`: the characters between two offsets, where both are boundaries. -/
def getText (source : List Char) (start stop : Nat) : Option (List Char) :=
  if start ≤ stop ∧ isCharBoundary source start ∧ isCharBoundary source stop then
    (Utf8.fromUtf8 (sliceBytes source start stop)).toOption
  else none

variable {start stop : Nat}

/-- Two ordered boundaries cut out a text. -/
theorem getText_isSome_iff :
    (getText source start stop).isSome = true ↔
      start ≤ stop ∧ Boundary source start ∧ Boundary source stop := by
  rw [← isCharBoundary_iff, ← isCharBoundary_iff]
  unfold getText
  split_ifs with h
  · refine iff_of_true ?_ h
    rw [isCharBoundary_iff, isCharBoundary_iff] at h
    obtain ⟨hle, ⟨before, after, rfl, rfl⟩, before', after', heq, rfl⟩ := h
    obtain ⟨window, rfl⟩ : ∃ window, before' = before ++ window := by
      rw [List.append_eq_append_iff] at heq
      rcases heq with ⟨window, rfl, -⟩ | ⟨window, rfl, -⟩
      · exact ⟨window, rfl⟩
      · rw [byteLen_append] at hle
        have hnil : window = [] := by
          cases window with
          | nil => rfl
          | cons c window =>
            have := c.utf8Size_pos
            rw [byteLen_cons] at hle
            omega
        exact ⟨[], by rw [hnil]; simp⟩
    rw [heq, byteLen_append, sliceBytes_append, Utf8.fromUtf8_encode]
    rfl
  · exact iff_of_false (by simp) h

/-! ## Cutting texts -/

theorem byteLen_eq_zero_iff {cs : List Char} : byteLen cs = 0 ↔ cs = [] := by
  constructor
  · intro h
    cases cs with
    | nil => rfl
    | cons c cs =>
      have := c.utf8Size_pos
      rw [byteLen_cons] at h
      omega
  · rintro rfl
    rfl

variable {front back : List Char}

/-- A text is cut at an offset in one way. -/
theorem append_inj_byteLen {front' back' : List Char}
    (h : front ++ back = front' ++ back') (hlen : byteLen front = byteLen front') :
    front = front' ∧ back = back' := by
  have hbytes := congrArg Utf8.encode h
  rw [Utf8.encode_append, Utf8.encode_append] at hbytes
  obtain ⟨h₁, h₂⟩ := List.append_inj hbytes hlen
  exact ⟨Utf8.encode_injective h₁, Utf8.encode_injective h₂⟩

theorem append_prefix_byteLen {front' back' : List Char}
    (h : front ++ back = front' ++ back') (hlen : byteLen front ≤ byteLen front') :
    ∃ middle, front' = front ++ middle ∧ back = middle ++ back' := by
  rcases List.append_eq_append_iff.mp h with ⟨middle, rfl, rfl⟩ | ⟨middle, rfl, rfl⟩
  · exact ⟨middle, rfl, rfl⟩
  · rw [byteLen_append] at hlen
    obtain rfl := byteLen_eq_zero_iff.mp (by omega : byteLen middle = 0)
    exact ⟨[], by simp, rfl⟩

variable {text : List Char}

theorem getText_eq_some_iff :
    getText source start stop = some text ↔
      ∃ before after, source = before ++ text ++ after ∧ byteLen before = start ∧
        start + byteLen text = stop := by
  constructor
  · intro h
    have hsome : (getText source start stop).isSome = true := by rw [h]; rfl
    obtain ⟨hle, ⟨before, after, rfl, rfl⟩, before', after', heq, rfl⟩ :=
      getText_isSome_iff.mp hsome
    obtain ⟨window, rfl, rfl⟩ := append_prefix_byteLen heq hle
    unfold getText at h
    split_ifs at h
    rw [byteLen_append, ← List.append_assoc, sliceBytes_append, Utf8.fromUtf8_encode] at h
    cases h
    exact ⟨before, after', by simp, rfl, by simp⟩
  · rintro ⟨before, after, rfl, rfl, rfl⟩
    unfold getText
    rw [if_pos, sliceBytes_append, Utf8.fromUtf8_encode]
    · rfl
    · refine ⟨Nat.le_add_right _ _, ?_, ?_⟩ <;> rw [isCharBoundary_iff]
      · exact ⟨before, text ++ after, by simp, rfl⟩
      · exact ⟨before ++ text, after, rfl, by simp⟩

example : getText ['a', 'b'] 1 2 = some ['b'] := getText_eq_some_iff.mpr
    ⟨['a'], [], by simp, by decide, by decide⟩

theorem getText_full (source : List Char) : getText source 0 (byteLen source) = some source :=
  getText_eq_some_iff.mpr ⟨[], [], by simp, rfl, by simp⟩

theorem getText_self {offset : Nat} (h : Boundary source offset) :
    getText source offset offset = some [] := by
  obtain ⟨before, after, rfl, rfl⟩ := h
  exact getText_eq_some_iff.mpr ⟨before, after, by simp, rfl, rfl⟩

/-- Two texts that meet are one text. -/
theorem getText_append {middle : Nat} (hfront : getText source start middle = some front)
    (hback : getText source middle stop = some back) :
    getText source start stop = some (front ++ back) := by
  obtain ⟨before, after, rfl, rfl, rfl⟩ := getText_eq_some_iff.mp hfront
  obtain ⟨before', after', heq, hlen, rfl⟩ := getText_eq_some_iff.mp hback
  rw [List.append_assoc before' back after'] at heq
  obtain ⟨rfl, rfl⟩ := append_inj_byteLen heq (by rw [hlen, byteLen_append])
  exact getText_eq_some_iff.mpr ⟨before, after', by simp, rfl, by rw [byteLen_append]; omega⟩

/-- A text is cut in two behind its front. -/
theorem getText_cut (h : getText source start stop = some (front ++ back)) :
    getText source start (start + byteLen front) = some front ∧
      getText source (start + byteLen front) stop = some back := by
  obtain ⟨before, after, rfl, rfl, rfl⟩ := getText_eq_some_iff.mp h
  constructor <;> rw [getText_eq_some_iff]
  · exact ⟨before, back ++ after, by simp, rfl, rfl⟩
  · exact ⟨before ++ front, after, by simp, by simp, by rw [byteLen_append]; omega⟩

theorem exists_getText (hle : start ≤ stop)
    (hstart : Boundary source start) (hstop : Boundary source stop) :
    ∃ text, getText source start stop = some text :=
  Option.isSome_iff_exists.mp (getText_isSome_iff.mpr ⟨hle, hstart, hstop⟩)

theorem encode_of_getText (h : getText source start stop = some text) :
    Utf8.encode text = sliceBytes source start stop := by
  obtain ⟨before, after, rfl, rfl, rfl⟩ := getText_eq_some_iff.mp h
  rw [sliceBytes_append]

theorem getText_le (h : getText source start stop = some text) : start ≤ stop := by
  obtain ⟨before, after, rfl, rfl, rfl⟩ := getText_eq_some_iff.mp h
  exact Nat.le_add_right _ _

/-- Only whitespace stands between two offsets. -/
def Spaces (source : List Char) (start stop : Nat) : Prop :=
  ∃ text, getText source start stop = some text ∧ ∀ c ∈ text, isWhitespace c = true

theorem Spaces.le (h : Spaces source start stop) : start ≤ stop := by
  obtain ⟨text, htext, -⟩ := h
  exact getText_le htext

theorem Spaces.append {middle : Nat}
    (h : Spaces source start middle) (h' : Spaces source middle stop) :
    Spaces source start stop := by
  obtain ⟨front, hfront, hall⟩ := h
  obtain ⟨back, hback, hall'⟩ := h'
  exact ⟨front ++ back, getText_append hfront hback, List.forall_mem_append.mpr ⟨hall, hall'⟩⟩

theorem Spaces.self {offset : Nat} (h : Boundary source offset) :
    Spaces source offset offset := ⟨[], getText_self h, by rintro _ ⟨⟩⟩

/-- The character of an ASCII byte. -/
theorem mem_encode_ascii (h : ∀ byte ∈ Utf8.encode text, byte.toNat < 0x80)
    {c : Char} (hc : c ∈ text) : c.toNat < 0x80 ∧ UInt8.ofNat c.toNat ∈ Utf8.encode text := by
  have hsub : ∀ byte ∈ String.utf8EncodeChar c, byte ∈ Utf8.encode text := fun byte hbyte =>
    List.mem_flatMap.mpr ⟨c, hc, hbyte⟩
  have hlt : c.toNat < 0x80 := by
    by_contra hge
    obtain ⟨byte, tl, henc, -, -, -, hlead⟩ := Utf8.encodeChar_cons c
    have := h byte (hsub byte (by rw [henc]; exact List.mem_cons_self))
    have := (hlead (Nat.not_lt.mp hge)).1
    omega
  refine ⟨hlt, hsub _ ?_⟩
  rw [Utf8.encodeChar_ascii hlt]
  exact List.mem_singleton_self _

/-! ## Bytes from an offset on -/

/-- `u8::is_ascii_whitespace`. -/
def isAsciiWhitespace (byte : UInt8) : Bool :=
  byte == 0x20 || byte == 0x09 || byte == 0x0A || byte == 0x0C || byte == 0x0D

/-- The bytes from an offset on. -/
def bytesAt (source : List Char) (position : Nat) : List UInt8 := (Utf8.encode source).drop position

section

variable {source : List Char}

variable {position : Nat} {byte : UInt8} {bytes : List UInt8}

theorem bytesAt_succ
    (h : bytesAt source position = byte :: bytes) : bytesAt source (position + 1) = bytes := by
  unfold bytesAt at *
  rw [← List.drop_drop, h]
  rfl

theorem lt_of_bytesAt
    (h : bytesAt source position = byte :: bytes) : position < byteLen source := by
  by_contra hge
  rw [bytesAt, List.drop_eq_nil_of_le (Nat.not_lt.mp hge)] at h
  cases h

theorem bytesAt_boundary (hb : Boundary source position) (hlt : position < byteLen source) :
    ∃ c bytes, bytesAt source position = String.utf8EncodeChar c ++ bytes := by
  obtain ⟨after, hafter⟩ := hb.drop
  cases after with
  | nil =>
    have : byteLen source ≤ position := List.drop_eq_nil_iff.mp hafter
    omega
  | cons c after => exact ⟨c, _, by rw [bytesAt, hafter, Utf8.encode_cons]⟩

theorem bytesAt_of_lt (hlt : position < byteLen source) :
    ∃ byte bytes, bytesAt source position = byte :: bytes := by
  cases hb : bytesAt source position with
  | nil =>
    have : byteLen source ≤ position := List.drop_eq_nil_iff.mp hb
    omega
  | cons byte bytes => exact ⟨byte, bytes, rfl⟩

theorem isAsciiWhitespace_lt (h : isAsciiWhitespace byte = true) : byte.toNat < 0x80 := by
  simp only [isAsciiWhitespace, Bool.or_eq_true, beq_iff_eq] at h
  rcases h with (((rfl | rfl) | rfl) | rfl) | rfl <;> decide

theorem isContinuation_of_lt (h : byte.toNat < 0x80) : Utf8.isContinuation byte = false := by
  rw [← Bool.not_eq_true, Utf8.isContinuation_iff]
  omega

/-- An ASCII byte at a boundary is a character of its own. -/
theorem boundary_succ (h : Boundary source position) (hb : bytesAt source position = byte :: bytes)
    (hascii : byte.toNat < 0x80) : Boundary source (position + 1) := by
  have hc : (Utf8.charOf byte.toNat).toNat = byte.toNat :=
    Utf8.toNat_charOf (by unfold Nat.isValidChar; omega)
  have henc := Utf8.encodeChar_ascii (c := Utf8.charOf byte.toNat) (by omega)
  rw [hc, UInt8.ofNat_toNat] at henc
  have hsize : (Utf8.charOf byte.toNat).utf8Size = 1 := by
    rw [← String.length_utf8EncodeChar, henc, List.length_singleton]
  have := h.next (c := Utf8.charOf byte.toNat) (by rw [henc]; exact hb)
  rwa [hsize] at this

theorem boundary_skip_ascii {continues : UInt8 → Bool}
    (hc : ∀ byte, continues byte = true → byte.toNat < 0x80)
    (h : Boundary source position) (hb : bytesAt source position = bytes) :
    Boundary source (position + (bytes.takeWhile continues).length) := by
  induction bytes generalizing position with
  | nil => exact h
  | cons byte bytes ih =>
    by_cases hbyte : continues byte = true
    · rw [List.takeWhile_cons_of_pos hbyte, List.length_cons, Nat.add_comm _ 1, ← Nat.add_assoc]
      exact ih (boundary_succ h hb (hc byte hbyte)) (bytesAt_succ hb)
    · rw [List.takeWhile_cons_of_neg hbyte]
      exact h

theorem isWhitespace_of_ascii {c : Char} (hc : c.toNat < 0x80)
    (h : isAsciiWhitespace (UInt8.ofNat c.toNat) = true) : isWhitespace c = true := by
  simp only [isAsciiWhitespace, Bool.or_eq_true, beq_iff_eq, ← UInt8.toNat_inj,
    Utf8.toNat_byte (show c.toNat < 256 by omega)] at h
  unfold isWhitespace
  simp only [Bool.or_eq_true, Bool.and_eq_true, decide_eq_true_eq, beq_iff_eq]
  rcases h with (((h | h) | h) | h) | h <;> (rw [h]; decide)

/-- Only whitespace stands where every byte is ASCII whitespace. -/
theorem spaces_of_bytes {start stop : Nat} (hle : start ≤ stop) (hstart : Boundary source start)
    (hstop : Boundary source stop)
    (h : ∀ byte ∈ sliceBytes source start stop, isAsciiWhitespace byte = true) :
    Spaces source start stop := by
  obtain ⟨text, htext⟩ := exists_getText hle hstart hstop
  refine ⟨text, htext, fun c hc => ?_⟩
  rw [← encode_of_getText htext] at h
  obtain ⟨hlt, hmem⟩ := mem_encode_ascii (fun byte hbyte => isAsciiWhitespace_lt (h byte hbyte)) hc
  exact isWhitespace_of_ascii hlt (h _ hmem)

/-- Skipping up to a byte that starts a character, or to the end. -/
theorem boundary_skip_until {continues : UInt8 → Bool}
    (hc : ∀ byte, continues byte = false → Utf8.isContinuation byte = false)
    (hle : position ≤ byteLen source) (hb : bytesAt source position = bytes) :
    Boundary source (position + (bytes.takeWhile continues).length) := by
  induction bytes generalizing position with
  | nil =>
    have : byteLen source ≤ position := List.drop_eq_nil_iff.mp hb
    rw [Nat.le_antisymm hle this]
    exact Boundary.end source
  | cons byte bytes ih =>
    cases hbyte : continues byte with
    | true =>
      rw [List.takeWhile_cons_of_pos hbyte, List.length_cons, Nat.add_comm _ 1, ← Nat.add_assoc]
      exact ih (lt_of_bytesAt hb) (bytesAt_succ hb)
    | false =>
      rw [List.takeWhile_cons_of_neg (by rw [hbyte]; decide)]
      refine boundary_of_getElem? ?_ (hc byte hbyte)
      rw [← List.head?_drop]
      exact congrArg List.head? hb

theorem boundary_append {front : List UInt8} (h : Boundary source position)
    (hb : bytesAt source position = front ++ bytes) (hascii : ∀ byte ∈ front, byte.toNat < 0x80) :
    Boundary source (position + front.length) := by
  induction front generalizing position with
  | nil => exact h
  | cons byte front ih =>
    rw [List.forall_mem_cons] at hascii
    rw [List.length_cons, Nat.add_comm _ 1, ← Nat.add_assoc]
    exact ih (boundary_succ h hb hascii.1) (bytesAt_succ hb) hascii.2

end

end ParadoxCode
