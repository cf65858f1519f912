import ParadoxCode.Index.FileState

/-!
# Offsets and editor positions

`LineIndex` of the text crate converts both ways. The conversions need of the line starts only that
they ascend from zero and are boundaries: an offset is at the line of the last start that is not
behind it, and its position counts the UTF-16 units from there.

The end of the last line is the length of the text, cut off at the last offset of 32 bits. Texts
that are longer and have a character across this offset do not get a text for their last line.
-/

namespace ParadoxCode.Index.LineIndex

/-! ## From positions to offsets -/

/-- The loop of `offset` over the characters of a line. -/
def offsetIn (character start lineLen : Nat) : List Char → Nat → Nat → Option Nat
  | [], _, utf16 => if utf16 = character then tryU32 (start + lineLen) else none
  | c :: rest, byteOffset, utf16 =>
    if utf16 = character then tryU32 (start + byteOffset)
    else do
      let utf16 ← tryU32 (utf16 + lenUtf16 c)
      if character < utf16 then none
      else offsetIn character start lineLen rest (byteOffset + c.utf8Size) utf16

/-- `LineIndex::offset`. -/
def offset (index : LineIndex) (text : Str) (position : Position) : Option Nat := do
  let start ← index.lineStarts[position.line]?
  let stop := index.lineStarts[position.line + 1]?.getD index.textLen
  let line ← getText text start stop
  offsetIn position.character start (byteLen line) line 0 0

/-- The UTF-16 units of a text. -/
def units (text : Str) : Nat := (text.map lenUtf16).sum

@[simp] theorem units_nil : units [] = 0 := rfl

@[simp] theorem units_cons (c : Char) (text : Str) : units (c :: text) = lenUtf16 c + units text :=
  rfl

@[simp] theorem units_append (front back : Str) : units (front ++ back) =
    units front + units back := by
  unfold units
  rw [List.map_append, List.sum_append]

theorem lenUtf16_pos (c : Char) : 0 < lenUtf16 c := by
  unfold lenUtf16
  split_ifs <;> omega

/-- A character has no more UTF-16 units than bytes. -/
theorem lenUtf16_le (c : Char) : lenUtf16 c ≤ c.utf8Size := by
  have hpos := c.utf8Size_pos
  unfold lenUtf16
  split_ifs with h
  · exact hpos
  · by_contra hsmall
    obtain hone : c.utf8Size = 1 := by omega
    rw [Char.utf8Size_eq_one_iff, UInt32.le_iff_toNat_le] at hone
    have : c.toNat = c.val.toNat := rfl
    have : (0x7f : UInt32).toNat = 0x7f := rfl
    omega

theorem units_le (text : Str) : units text ≤ byteLen text := by
  induction text with
  | nil => exact le_rfl
  | cons c text ih =>
    rw [units_cons, byteLen_cons]
    exact Nat.add_le_add (lenUtf16_le c) ih

theorem units_eq_zero_iff {text : Str} : units text = 0 ↔ text = [] := by
  cases text with
  | nil => simp
  | cons c text =>
    have := lenUtf16_pos c
    simp only [units_cons, reduceCtorEq, iff_false]
    omega

/-- The loop finds the front of the line that has the units before the position. -/
theorem offsetIn_eq_some_iff {character start lineLen found : Nat}
    (hcharacter : character ≤ u32Max) :
    ∀ {rest : Str} {byteOffset utf16 : Nat}, byteOffset + byteLen rest = lineLen →
      (offsetIn character start lineLen rest byteOffset utf16 = some found ↔
        ∃ front back, rest = front ++ back ∧ utf16 + units front = character ∧
          found = start + byteOffset + byteLen front ∧ found ≤ u32Max) := by
  intro rest
  induction rest with
  | nil =>
    intro byteOffset utf16 hlen
    rw [byteLen_nil, Nat.add_zero] at hlen
    unfold offsetIn
    constructor
    · intro h
      split_ifs at h with hsame
      obtain ⟨hle, hfound⟩ := tryU32_eq_some_iff.mp h
      exact ⟨[], [], rfl, hsame, by rw [byteLen_nil]; omega, by omega⟩
    · rintro ⟨front, back, hsplit, hunits, rfl, hle⟩
      obtain ⟨rfl, rfl⟩ := List.append_eq_nil_iff.mp hsplit.symm
      rw [units_nil, Nat.add_zero] at hunits
      rw [byteLen_nil, Nat.add_zero] at hle ⊢
      rw [if_pos hunits, tryU32_eq_some_iff]
      omega
  | cons c rest ih =>
    intro byteOffset utf16 hlen
    rw [byteLen_cons, ← Nat.add_assoc] at hlen
    have hpos := lenUtf16_pos c
    unfold offsetIn
    split_ifs with hsame
    · rw [tryU32_eq_some_iff]
      constructor
      · rintro ⟨hle, rfl⟩
        exact ⟨[], c :: rest, rfl, hsame, rfl, hle⟩
      · rintro ⟨front, back, -, hunits, rfl, hle⟩
        -- nothing of the line is in front
        obtain rfl := units_eq_zero_iff.mp (show units front = 0 by omega)
        exact ⟨hle, rfl⟩
    · have hmore : (∃ front back, c :: rest = front ++ back ∧ utf16 + units front = character ∧
          found = start + byteOffset + byteLen front ∧ found ≤ u32Max) ↔
          ∃ front back, rest = front ++ back ∧ utf16 + lenUtf16 c + units front = character ∧
            found = start + (byteOffset + c.utf8Size) + byteLen front ∧ found ≤ u32Max := by
        constructor
        · rintro ⟨front, back, hsplit, hunits, hfound, hle⟩
          cases front with
          | nil => exact absurd hunits hsame
          | cons d front =>
            obtain ⟨rfl, hrest⟩ := List.cons.inj hsplit
            rw [units_cons] at hunits
            rw [byteLen_cons] at hfound
            exact ⟨front, back, hrest, by omega, by omega, hle⟩
        · rintro ⟨front, back, rfl, hunits, hfound, hle⟩
          exact ⟨c :: front, back, rfl, by rw [units_cons]; omega, by rw [byteLen_cons]; omega, hle⟩
      rw [hmore]
      by_cases hfits : utf16 + lenUtf16 c ≤ u32Max
      · rw [tryU32_eq_some_iff.mpr ⟨hfits, rfl⟩]
        simp only [Option.bind_eq_bind, Option.bind_some]
        split_ifs with hbehind
        · refine iff_of_false (fun h => nomatch h) ?_
          rintro ⟨front, back, -, hunits, -, -⟩
          omega
        · exact ih hlen
      · have hnone : tryU32 (utf16 + lenUtf16 c) = none := if_neg hfits
        rw [hnone]
        refine iff_of_false (fun h => nomatch h) ?_
        rintro ⟨front, back, -, hunits, -, -⟩
        omega

/-- The units that are counted stay in 32 bits. -/
theorem character_le_of_offsetIn {character start lineLen found : Nat} :
    ∀ {rest : Str} {byteOffset utf16 : Nat}, utf16 ≤ u32Max →
      offsetIn character start lineLen rest byteOffset utf16 = some found → character ≤ u32Max := by
  intro rest
  induction rest with
  | nil =>
    intro byteOffset utf16 hle h
    unfold offsetIn at h
    split_ifs at h with hsame
    exact hsame ▸ hle
  | cons c rest ih =>
    intro byteOffset utf16 hle h
    unfold offsetIn at h
    split_ifs at h with hsame
    · exact hsame ▸ hle
    · obtain ⟨more, hmore, h⟩ := Option.bind_eq_some_iff.mp h
      split_ifs at h
      obtain ⟨hfits, rfl⟩ := tryU32_eq_some_iff.mp hmore
      exact ih hfits h

/-! ## Line starts -/

theorem textLen_new (text : Str) : (new text).textLen = min (byteLen text) u32Max := by
  show (tryU32 (byteLen text)).getD u32Max = _
  unfold tryU32
  split_ifs with h
  · exact (min_eq_left h).symm
  · exact (min_eq_right (Nat.le_of_lt (Nat.not_le.mp h))).symm

/-- The line start behind a byte. -/
theorem startBehind_eq_some_iff {byte : UInt8} {offset start : Nat} :
    (if (byte == 0x0A) = true then tryU32 (offset + 1) else none) = some start ↔
      byte = 0x0A ∧ offset + 1 ≤ u32Max ∧ offset + 1 = start := by
  rw [Option.ite_none_right_eq_some, beq_iff_eq, tryU32_eq_some_iff]

/-- A line start is a boundary behind a line break, within the length of the text. -/
theorem mem_lineStarts {text : Str} {start : Nat} (h : start ∈ (new text).lineStarts) :
    Boundary text start ∧ start ≤ (new text).textLen := by
  rw [textLen_new]
  rcases List.mem_cons.mp h with rfl | hlater
  · exact ⟨Boundary.zero text, Nat.zero_le _⟩
  · obtain ⟨⟨byte, offset⟩, hbyte, hstart⟩ := List.mem_filterMap.mp hlater
    obtain ⟨hbreak, hle, rfl⟩ := startBehind_eq_some_iff.mp hstart
    have hget : (Utf8.encode text)[offset]? = some byte := (List.mem_zipIdx_iff_getElem?.mp hbyte)
    have hlt : byte.toNat < 0x80 := by rw [hbreak]; decide
    have hboundary := boundary_of_getElem? hget (isContinuation_of_lt hlt)
    obtain ⟨hin, heq⟩ := List.getElem?_eq_some_iff.mp hget
    have hnext : Boundary text (offset + 1) := by
      have hbytes : bytesAt text offset = byte :: (Utf8.encode text).drop (offset + 1) := by
        unfold bytesAt
        rw [List.drop_eq_getElem_cons hin, heq]
      exact boundary_succ hboundary hbytes hlt
    exact ⟨hnext, le_min hnext.le hle⟩

theorem pairwise_lineStarts (text : Str) : (new text).lineStarts.Pairwise (· < ·) := by
  refine List.pairwise_cons.mpr ⟨fun start h => ?_, ?_⟩
  · obtain ⟨⟨byte, offset⟩, -, hstart⟩ := List.mem_filterMap.mp h
    obtain ⟨-, -, rfl⟩ := startBehind_eq_some_iff.mp hstart
    exact Nat.succ_pos offset
  · have hindices : (Utf8.encode text).zipIdx.Pairwise fun a b => a.2 < b.2 := by
      rw [← List.pairwise_map (f := Prod.snd) (R := (· < ·)), List.zipIdx_map_snd]
      exact List.pairwise_lt_range'
    refine List.pairwise_filterMap.mpr (hindices.imp fun {a b} hlt => ?_)
    intro start hstart start' hstart'
    obtain ⟨-, -, rfl⟩ := startBehind_eq_some_iff.mp hstart
    obtain ⟨-, -, rfl⟩ := startBehind_eq_some_iff.mp hstart'
    exact Nat.succ_lt_succ hlt

/-- The line of an offset: the last one that starts not behind it. -/
structure AtLine (text : Str) (offset line start : Nat) : Prop where
  found : (new text).lineStarts[line]? = some start
  le : start ≤ offset
  next : ∀ next, (new text).lineStarts[line + 1]? = some next → offset < next

theorem lt_of_getElem?_lineStarts {text : Str} {i j a b : Nat}
    (ha : (new text).lineStarts[i]? = some a)
    (hb : (new text).lineStarts[j]? = some b) (hlt : i < j) : a < b := by
  obtain ⟨hi, rfl⟩ := List.getElem?_eq_some_iff.mp ha
  obtain ⟨hj, rfl⟩ := List.getElem?_eq_some_iff.mp hb
  exact List.pairwise_iff_getElem.mp (pairwise_lineStarts text) i j hi hj hlt

theorem le_of_getElem?_lineStarts {text : Str} {line start : Nat}
    (h : (new text).lineStarts[line]? = some start) : line ≤ start := by
  induction line generalizing start with
  | zero => exact Nat.zero_le _
  | succ line ih =>
    obtain ⟨hlt, -⟩ := List.getElem?_eq_some_iff.mp h
    have hbefore := List.getElem?_eq_getElem (Nat.lt_of_succ_lt hlt)
    exact Nat.lt_of_le_of_lt (ih hbefore) (lt_of_getElem?_lineStarts hbefore h
      (Nat.lt_succ_self line))

/-- The line of an offset and its start only depend on the offset. -/
theorem AtLine.unique {text : Str} {offset line start line' start' : Nat}
    (h : AtLine text offset line start)
    (h' : AtLine text offset line' start') : line = line' ∧ start = start' := by
  have hnot : ∀ {i j a b : Nat}, AtLine text offset i a → AtLine text offset j b → ¬ i < j := by
    intro i j a b hi hj hlt
    obtain ⟨hlen, -⟩ := List.getElem?_eq_some_iff.mp hj.found
    have hnext := List.getElem?_eq_getElem (Nat.lt_of_le_of_lt (Nat.succ_le_of_lt hlt) hlen)
    have hbehind := hi.next _ hnext
    rcases Nat.lt_or_eq_of_le (Nat.succ_le_of_lt hlt) with hfar | heq
    · have := lt_of_getElem?_lineStarts hnext hj.found hfar
      have := hj.le
      omega
    · have hsame := hj.found
      rw [← heq, hnext] at hsame
      have := hj.le
      have := Option.some.inj hsame
      omega
  have hline : line = line' := by
    rcases Nat.lt_trichotomy line line' with hlt | heq | hlt
    · exact absurd hlt (hnot h h')
    · exact heq
    · exact absurd hlt (hnot h' h)
  subst hline
  exact ⟨rfl, Option.some.inj (h.found.symm.trans h'.found)⟩

/-- `partition_point` finds the line of an offset. -/
theorem atLine_takeWhile (text : Str) (offset : Nat) : ∃ start,
    AtLine text offset (((new text).lineStarts.takeWhile (· ≤ offset)).length - 1) start := by
  have hsplit := List.takeWhile_append_dropWhile (p := fun start => decide (start ≤ offset))
    (l := (new text).lineStarts)
  have hpos : 0 < ((new text).lineStarts.takeWhile (· ≤ offset)).length := by
    show 0 < ((0 :: _).takeWhile (· ≤ offset)).length
    rw [List.takeWhile_cons_of_pos (by simp), List.length_cons]
    exact Nat.succ_pos _
  generalize hfront : (new text).lineStarts.takeWhile (· ≤ offset) = front at hsplit hpos ⊢
  have hlast : front.length - 1 < front.length := by omega
  refine ⟨front[front.length - 1], ?_, ?_, fun next hnext => ?_⟩
  · rw [← hsplit, List.getElem?_append_left hlast, List.getElem?_eq_getElem hlast]
  · have hmem : front[front.length - 1] ∈ (new text).lineStarts.takeWhile (· ≤ offset) :=
      hfront ▸ List.getElem_mem hlast
    simpa using List.all_eq_true.mp List.all_takeWhile _ hmem
  · rw [Nat.sub_add_cancel hpos, ← hsplit, List.getElem?_append_right le_rfl, Nat.sub_self,
      ← List.head?_eq_getElem?] at hnext
    have hnot := List.head?_dropWhile_not (fun start => decide (start ≤ offset))
      (new text).lineStarts
    rw [hnext] at hnot
    simpa using hnot

/-! ## Positions of offsets -/

variable {text : Str} {offset : Nat} {found : Position}

/-- The position of an offset: the line and the units from its start. -/
theorem position_eq_some_iff (hoffset : offset ≤ u32Max) :
    (new text).position text offset = some found ↔
    ∃ start slice, AtLine text offset found.line start ∧ getText text start offset = some slice ∧
      found.character = units slice := by
  obtain ⟨start, hat⟩ := atLine_takeWhile text offset
  unfold position
  generalize ((new text).lineStarts.takeWhile (· ≤ offset)).length - 1 = line at hat ⊢
  have hfits : line ≤ u32Max :=
    (le_of_getElem?_lineStarts hat.found).trans (hat.le.trans hoffset)
  split_ifs with hlen
  · -- behind the end of the text nothing is a boundary
    refine iff_of_false (fun h => nomatch h) ?_
    rintro ⟨start', slice, -, hslice, -⟩
    have hboundary := (getText_isSome_iff.mp (Option.isSome_of_eq_some hslice)).2.2
    have := hboundary.le
    rw [textLen_new] at hlen
    omega
  · dsimp only
    rw [hat.found]
    simp only [Option.bind_eq_bind, Option.bind_some]
    cases hslice : getText text start offset with
    | none =>
      refine iff_of_false (fun h => nomatch h) ?_
      rintro ⟨start', slice, hat', hslice', -⟩
      rw [← (hat.unique hat').2, hslice] at hslice'
      cases hslice'
    | some slice =>
      have hunits : units slice ≤ u32Max := by
        obtain ⟨before, after, -, -, hlen⟩ := getText_eq_some_iff.mp hslice
        have := units_le slice
        omega
      have hcharacter : tryU32 (slice.map lenUtf16).sum = some (units slice) := if_pos hunits
      have hline : tryU32 line = some line := if_pos hfits
      rw [hline, Option.bind_some, hcharacter, Option.bind_some, Option.bind_some,
        Option.some.injEq]
      constructor
      · rintro rfl
        exact ⟨start, slice, hat, hslice, rfl⟩
      · rintro ⟨start', slice', hat', hslice', hunits'⟩
        obtain ⟨hsame, rfl⟩ := hat.unique hat'
        rw [hslice] at hslice'
        cases found
        exact Position.mk.injEq .. ▸ ⟨hsame, (Option.some.inj hslice') ▸ hunits'.symm⟩

/-- Every boundary has a position. -/
theorem exists_position (h : Boundary text offset) (hoffset : offset ≤ u32Max) :
    ∃ found, (new text).position text offset = some found := by
  obtain ⟨start, hat⟩ := atLine_takeWhile text offset
  obtain ⟨hstart, -⟩ := mem_lineStarts (List.mem_of_getElem? hat.found)
  obtain ⟨slice, hslice⟩ := exists_getText hat.le hstart h
  exact ⟨⟨_, units slice⟩, (position_eq_some_iff hoffset).mpr ⟨start, slice, hat, hslice, rfl⟩⟩

/-- Only boundaries have a position. -/
theorem boundary_of_position (h : (new text).position text offset = some found) :
    Boundary text offset := by
  have hoffset : offset ≤ u32Max := by
    by_contra hlt
    have hbehind : (new text).textLen < offset := by
      rw [textLen_new]
      omega
    unfold position at h
    rw [if_pos hbehind] at h
    cases h
  obtain ⟨start, slice, -, hslice, -⟩ := (position_eq_some_iff hoffset).mp h
  exact (getText_isSome_iff.mp (Option.isSome_of_eq_some hslice)).2.2

/-- The end of a line: the start of the next one, or the end of the text. -/
def lineStop (text : Str) (line : Nat) : Nat := (new text).lineStarts[line + 1]?.getD
    (new text).textLen

/-- The offset of a position: the front of its line has the units before it. -/
theorem offset_eq_some_iff {position : Position} (hcharacter : position.character ≤ u32Max) :
    (new text).offset text position = some offset ↔
      ∃ start front back, (new text).lineStarts[position.line]? = some start ∧
        getText text start (lineStop text position.line) = some (front ++ back) ∧
          units front = position.character ∧ offset = start + byteLen front ∧ offset ≤ u32Max := by
  have hunfold : (new text).offset text position =
      ((new text).lineStarts[position.line]?).bind fun start =>
        (getText text start (lineStop text position.line)).bind fun line =>
          offsetIn position.character start (byteLen line) line 0 0 := rfl
  rw [hunfold]
  constructor
  · intro h
    obtain ⟨start, hstart, h⟩ := Option.bind_eq_some_iff.mp h
    obtain ⟨line, hline, h⟩ := Option.bind_eq_some_iff.mp h
    obtain ⟨front, back, rfl, hunits, hoffset, hle⟩ :=
      (offsetIn_eq_some_iff hcharacter (Nat.zero_add _)).mp h
    exact ⟨start, front, back, hstart, hline, by omega, by omega, hle⟩
  · rintro ⟨start, front, back, hstart, hline, hunits, rfl, hle⟩
    rw [hstart, Option.bind_some, hline, Option.bind_some,
      offsetIn_eq_some_iff hcharacter (Nat.zero_add _)]
    exact ⟨front, back, rfl, by omega, by omega, hle⟩

/-- The line of an offset ends behind it. -/
theorem AtLine.le_stop {line start : Nat} (h : AtLine text offset line start)
    (hlen : offset ≤ (new text).textLen) : offset ≤ lineStop text line := by
  unfold lineStop
  cases hnext : (new text).lineStarts[line + 1]? with
  | none => exact hlen
  | some next => exact Nat.le_of_lt (h.next next hnext)

/-! ## Round trips -/

/-- The offsets on boundaries come back from their positions. -/
def RoundTrips (text : Str) : Prop :=
  ∀ offset ≤ u32Max, Boundary text offset →
    ((new text).position text offset).bind ((new text).offset text) = some offset

/-- The positions of greater offsets are greater. -/
def StrictlyMonotone (text : Str) : Prop :=
  ∀ (offset offset' : Nat) (found found' : Position), offset' ≤ u32Max → offset < offset' →
    (new text).position text offset = some found → (new text).position text offset' = some found' →
      found.line < found'.line ∨ found.line = found'.line ∧ found.character < found'.character

/-- Offsets inside a character have no position. -/
def RejectsOffsets (text : Str) : Prop :=
  ∀ offset, ¬ Boundary text offset → (new text).position text offset = none

/-- Positions inside a surrogate pair have no offset: those one unit behind the position of a
character of two units. -/
def RejectsPositions (text : Str) : Prop :=
  ∀ (before after : Str) (c : Char) (found : Position), text = before ++ c :: after →
    lenUtf16 c = 2 → (new text).position text (byteLen before) = some found →
      (new text).offset text ⟨found.line, found.character + 1⟩ = none

theorem offset_of_position (hoffset : offset ≤ u32Max)
    (hclamped : byteLen text ≤ u32Max ∨ Boundary text u32Max)
    (h : (new text).position text offset = some found) : (new text).offset text found =
      some offset := by
  obtain ⟨start, slice, hat, hslice, hcharacter⟩ := (position_eq_some_iff hoffset).mp h
  obtain ⟨-, hstart, hboundary⟩ := getText_isSome_iff.mp (Option.isSome_of_eq_some hslice)
  have hlen : offset ≤ (new text).textLen := by
    rw [textLen_new]
    exact le_min hboundary.le hoffset
  have hend : Boundary text (new text).textLen := by
    rw [textLen_new]
    rcases hclamped with hle | hmax
    · rw [min_eq_left hle]
      exact Boundary.end text
    · rw [min_eq_right hmax.le]
      exact hmax
  have hstop : Boundary text (lineStop text found.line) := by
    unfold lineStop
    cases hnext : (new text).lineStarts[found.line + 1]? with
    | none => exact hend
    | some next => exact (mem_lineStarts (List.mem_of_getElem? hnext)).1
  obtain ⟨back, hback⟩ := exists_getText (hat.le_stop hlen) hboundary hstop
  obtain ⟨before, after, -, -, hsize⟩ := getText_eq_some_iff.mp hslice
  have hunits := units_le slice
  exact (offset_eq_some_iff (by omega)).mpr
    ⟨start, slice, back, hat.found, getText_append hslice hback, hcharacter.symm,
      hsize.symm, hoffset⟩

/-- The round trip holds exactly where the cut-off length is a boundary. -/
theorem roundTrips_iff (text : Str) : RoundTrips text ↔ byteLen text ≤ u32Max ∨
    Boundary text u32Max := by
  constructor
  · intro h
    by_contra hclamped
    rw [not_or, Nat.not_le] at hclamped
    obtain ⟨hlong, hnot⟩ := hclamped
    have hlen : (new text).textLen = u32Max := by
      rw [textLen_new]
      exact min_eq_right (Nat.le_of_lt hlong)
    -- the start of the last line
    have hne : (new text).lineStarts ≠ [] := List.cons_ne_nil _ _
    have hlast : (new text).lineStarts[(new text).lineStarts.length - 1]? =
        some ((new text).lineStarts.getLast hne) := by
      rw [← List.getLast?_eq_getElem?, List.getLast?_eq_some_getLast hne]
    have hbehind : (new text).lineStarts[(new text).lineStarts.length - 1 + 1]? = none :=
      List.getElem?_eq_none (by omega)
    obtain ⟨hstart, hle⟩ := mem_lineStarts (List.getLast_mem hne)
    generalize (new text).lineStarts.getLast hne = start at hlast hstart hle
    rw [hlen] at hle
    have hat : AtLine text start ((new text).lineStarts.length - 1) start :=
      ⟨hlast, le_rfl, fun next hnext => by rw [hbehind] at hnext; cases hnext⟩
    have hposition : (new text).position text start = some ⟨(new text).lineStarts.length - 1, 0⟩ :=
      (position_eq_some_iff hle).mpr ⟨start, [], hat, getText_self hstart, rfl⟩
    have htrip := h start hle hstart
    rw [hposition, Option.bind_some] at htrip
    obtain ⟨start', front, back, hstart', hline, -⟩ := (offset_eq_some_iff (Nat.zero_le _)).mp htrip
    have hstop : lineStop text ((new text).lineStarts.length - 1) = u32Max := by
      unfold lineStop
      rw [hbehind, Option.getD_none, hlen]
    rw [hstop] at hline
    exact hnot (getText_isSome_iff.mp (Option.isSome_of_eq_some hline)).2.2
  · intro hclamped offset hoffset hboundary
    obtain ⟨found, hfound⟩ := exists_position hboundary hoffset
    rw [hfound, Option.bind_some]
    exact offset_of_position hoffset hclamped hfound

theorem strictlyMonotone (text : Str) : StrictlyMonotone text := by
  intro offset offset' found found' hoffset' hlt h h'
  obtain ⟨start, slice, hat, hslice, hunits⟩ := (position_eq_some_iff (by omega)).mp h
  obtain ⟨start', slice', hat', hslice', hunits'⟩ := (position_eq_some_iff hoffset').mp h'
  rcases Nat.lt_trichotomy found.line found'.line with hline | hline | hline
  · exact .inl hline
  · -- on one line the slice is longer by a character at least
    refine .inr ⟨hline, ?_⟩
    have hsame : start = start' := by
      have := hat'.found
      rw [← hline, hat.found] at this
      exact Option.some.inj this
    subst hsame
    obtain ⟨before, after, rfl, hbefore, hsize⟩ := getText_eq_some_iff.mp hslice
    obtain ⟨before', after', hsplit, hbefore', hsize'⟩ := getText_eq_some_iff.mp hslice'
    rw [List.append_assoc, List.append_assoc] at hsplit
    obtain ⟨rfl, hrest⟩ := append_inj_byteLen hsplit (hbefore.trans hbefore'.symm)
    obtain ⟨middle, rfl, -⟩ := append_prefix_byteLen hrest (by omega)
    rw [byteLen_append] at hsize'
    have hpos : 0 < units middle := by
      refine Nat.pos_of_ne_zero fun hzero => ?_
      rw [units_eq_zero_iff.mp hzero, byteLen_nil] at hsize'
      omega
    rw [hunits, hunits', units_append]
    omega
  · -- the line of the greater offset starts before the end of its own line
    obtain ⟨hlen, -⟩ := List.getElem?_eq_some_iff.mp hat.found
    have hnext := List.getElem?_eq_getElem (Nat.lt_of_le_of_lt (Nat.succ_le_of_lt hline) hlen)
    have hbehind := hat'.next _ hnext
    have hle := hat.le
    rcases Nat.lt_or_eq_of_le (Nat.succ_le_of_lt hline) with hfar | heq
    · have := lt_of_getElem?_lineStarts hnext hat.found hfar
      omega
    · have hsame := hat.found
      rw [← heq, hnext] at hsame
      have := Option.some.inj hsame
      omega

theorem rejectsOffsets (text : Str) : RejectsOffsets text := by
  intro offset hnot
  cases h : (new text).position text offset with
  | none => rfl
  | some found => exact absurd (boundary_of_position h) hnot

theorem rejectsPositions (text : Str) : RejectsPositions text := by
  intro before after c found htext hpair h
  cases hoffset : (new text).offset text ⟨found.line, found.character + 1⟩ with
  | none => rfl
  | some offset =>
    have hcharacter : found.character + 1 ≤ u32Max := by
      obtain ⟨start, -, h⟩ := Option.bind_eq_some_iff.mp hoffset
      obtain ⟨line, -, h⟩ := Option.bind_eq_some_iff.mp h
      exact character_le_of_offsetIn (Nat.zero_le _) h
    obtain ⟨start', front, back, hstart', hline, hunits', -⟩ :=
      (offset_eq_some_iff hcharacter).mp hoffset
    dsimp only at hstart' hline hunits'
    have hfits : byteLen before ≤ u32Max := by
      by_contra hlt
      have hbehind : (new text).textLen < byteLen before := by
        rw [textLen_new]
        omega
      unfold position at h
      rw [if_pos hbehind] at h
      cases h
    obtain ⟨start, slice, hat, hslice, hunits⟩ := (position_eq_some_iff hfits).mp h
    obtain rfl : start = start' := Option.some.inj (hat.found.symm.trans hstart')
    -- both texts begin at the start of the line
    obtain ⟨lead, tail, hsplit, hlead, hsize⟩ := getText_eq_some_iff.mp hslice
    obtain ⟨lead', rest, hsplit', hlead', -⟩ := getText_eq_some_iff.mp hline
    have htail : before = lead ++ slice ∧ c :: after = tail := by
      rw [htext] at hsplit
      exact append_inj_byteLen hsplit (by rw [byteLen_append]; omega)
    rw [hsplit, ← htail.2, List.append_assoc, List.append_assoc] at hsplit'
    obtain ⟨-, hrest⟩ := append_inj_byteLen hsplit' (hlead.trans hlead'.symm)
    rw [List.append_assoc] at hrest
    rcases List.append_eq_append_iff.mp hrest with ⟨more, hfront, hmore⟩ | ⟨more, hslice', -⟩
    · rw [hfront, units_append] at hunits'
      cases more with
      | nil =>
        rw [units_nil] at hunits'
        omega
      | cons d more =>
        obtain ⟨rfl, -⟩ := List.cons.inj hmore
        rw [units_cons, hpair] at hunits'
        omega
    · rw [hslice', units_append] at hunits
      omega

/-- Positions and offsets are inverse for the offsets of a text, as far as its length can be
told. -/
structure Inverse (text : Str) : Prop where
  roundTrips : RoundTrips text
  strictlyMonotone : StrictlyMonotone text
  rejectsOffsets : RejectsOffsets text
  rejectsPositions : RejectsPositions text

/-- The conversions are strictly monotone and reject what is inside a character, for every text. The
offsets come back exactly if the end of the last line, cut off at the last offset of 32 bits, is a
boundary. -/
theorem inverse_iff (text : Str) :
    (Inverse text ↔ byteLen text ≤ u32Max ∨ Boundary text u32Max) ∧
      StrictlyMonotone text ∧ RejectsOffsets text ∧ RejectsPositions text :=
  ⟨⟨fun h => (roundTrips_iff text).mp h.roundTrips, fun h =>
    ⟨(roundTrips_iff text).mpr h, strictlyMonotone text, rejectsOffsets text,
      rejectsPositions text⟩⟩,
    strictlyMonotone text, rejectsOffsets text, rejectsPositions text⟩

theorem byteLen_replicate (n : Nat) : byteLen (List.replicate n 'a') = n := by
  induction n with
  | zero => rfl
  | succ n ih =>
    rw [List.replicate_succ, byteLen_cons, ih]
    exact Nat.add_comm 1 n

/-- A character across the last offset of 32 bits. -/
theorem not_inverse : ¬ ∀ text, Inverse text := by
  intro h
  have hlong : byteLen (List.replicate (u32Max - 1) 'a' ++ ['é']) = u32Max + 1 := by
    rw [byteLen_append, byteLen_replicate]
    rfl
  rcases (roundTrips_iff _).mp (h (List.replicate (u32Max - 1) 'a' ++ ['é'])).roundTrips with
    hle | hboundary
  · omega
  · obtain ⟨before, after, hsplit, hlen⟩ := hboundary
    obtain ⟨middle, rfl, hmiddle⟩ := append_prefix_byteLen hsplit
      (by rw [byteLen_replicate, hlen]; decide)
    rw [byteLen_append, byteLen_replicate] at hlen
    cases middle with
    | nil =>
      rw [byteLen_nil] at hlen
      exact absurd hlen (by decide)
    | cons c middle =>
      obtain ⟨rfl, -⟩ := List.cons.inj hmiddle
      rw [byteLen_cons] at hlen
      have hsize : Char.utf8Size 'é' = 2 := by decide
      have hmax : u32Max - 1 + 2 = u32Max + 1 := by decide
      omega

end ParadoxCode.Index.LineIndex
