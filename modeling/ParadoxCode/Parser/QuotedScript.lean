import Mathlib.Data.List.Induction
import ParadoxCode.Text

/-!
# Scripts embedded in a quoted scalar

`quoted_script.rs`: decoding a quoted scalar together with the map from decoded offsets to offsets
in the quoted source. Both are lists over the cells of the payload, the characters of the decoded
text with the spelling each has in the source (`decodePayloadFrom_eq_some_iff`), and all facts about
the map are facts about cells.
-/

namespace ParadoxCode.Parser

/-! ## The decoder -/

/-- Mapping from decoded offsets to offsets in the quoted token. -/
structure QuotedScriptSourceMap where
  decodedToSource : List Nat
  sourceLen : Nat
  deriving DecidableEq

namespace QuotedScriptSourceMap

/-- Maps a decoded offset to an offset relative to the opening quote. -/
def decodedOffset (map : QuotedScriptSourceMap) (offset : Nat) : Option Nat :=
  map.decodedToSource[offset]?

def decodedRange (map : QuotedScriptSourceMap) (range : TextRange) : Option TextRange :=
  match map.decodedOffset range.start, map.decodedOffset range.stop with
  | some start, some stop => TextRange.new start stop
  | _, _ => none

/-- Maps an offset in the quoted token to the closest decoded boundary at or before it. The offsets
of the map ascend, so `partition_point` is the length of the prefix that satisfies its test. -/
def sourceOffset (map : QuotedScriptSourceMap) (offset : Nat) : Option Nat :=
  if offset > map.sourceLen then none
  else tryU32 ((map.decodedToSource.takeWhile fun candidate => candidate ≤ offset).length - 1)

end QuotedScriptSourceMap

/-- The map entries `base + byte` for `byte` in `1..=len`. -/
def pushOffsets (base len : Nat) : Option (List Nat) :=
  (List.range' 1 len).mapM fun byte => tryU32 (base + byte)

/-- The loop of `decode_payload_with_checkpoint` from the character at `offset`: the decoded
characters and the map entries they add. `checkpoint k` answers the `k`-th call. -/
def decodePayloadFrom (checkpoint : Nat → Bool) :
    List Char → Nat → Nat → Option (List Char × List Nat)
  | [], _, _ => some ([], [])
  | character :: rest, offset, work =>
    let work := work + 1
    if work % 256 = 0 ∧ checkpoint (work / 256) = false then none
    else if character ≠ '\\' then do
      let entries ← pushOffsets (1 + offset) character.utf8Size
      let (decoded, more) ← decodePayloadFrom checkpoint rest (offset + character.utf8Size) work
      some (character :: decoded, entries ++ more)
    else
      let escapedOffset := offset + 1
      match rest with
      | [] => none
      | escaped :: rest =>
        if escaped = '"' ∨ escaped = '\\' then do
          let entries ← pushOffsets (1 + escapedOffset) escaped.utf8Size
          let (decoded, more) ←
            decodePayloadFrom checkpoint rest (escapedOffset + escaped.utf8Size) work
          some (escaped :: decoded, entries ++ more)
        else do
          let slash ← tryU32 (1 + escapedOffset)
          let entries ← pushOffsets (1 + escapedOffset) escaped.utf8Size
          let (decoded, more) ←
            decodePayloadFrom checkpoint rest (escapedOffset + escaped.utf8Size) work
          some ('\\' :: escaped :: decoded, slash :: entries ++ more)

def decodePayloadWithCheckpoint (payload : List Char) (sourceLen : Nat)
    (checkpoint : Nat → Bool) : Option (List Char × QuotedScriptSourceMap) := do
  let (decoded, entries) ← decodePayloadFrom checkpoint payload 0 0
  let sourceLen ← tryU32 sourceLen
  some (decoded, ⟨1 :: entries, sourceLen⟩)

def decodePayload (payload : List Char) (sourceLen : Nat) :
    Option (List Char × QuotedScriptSourceMap) :=
  decodePayloadWithCheckpoint payload sourceLen fun _ => true

/-- Whether an odd number of backslashes stands before the last byte. -/
def closingQuoteIsEscaped (source : List Char) : Bool :=
  (((Utf8.encode source).dropLast.reverse.takeWhile fun byte => byte == 0x5C).length) % 2 == 1

/-- Decodes one quoted carrier and its byte map. -/
def decodeQuotedScript (source : List Char) : Option (List Char × QuotedScriptSourceMap) :=
  match source with
  | '"' :: payload =>
    if source.getLast? = some '"' ∧ closingQuoteIsEscaped source = false then
      if payload.getLast? = some '"' then decodePayload payload.dropLast (byteLen source) else none
    else decodePayload payload (byteLen source)
  | _ => none

/-- Encodes text for insertion into a quoted payload. -/
def encodeQuotedScriptText (text : List Char) : List Char :=
  text.flatMap fun character =>
    if character = '"' then ['\\', '"']
    else if character = '\\' then ['\\', '\\']
    else [character]

/-! ## Cells -/

/-- A decoded character with its spelling in the payload. -/
structure Cell where
  char : Char
  spelling : List Char
  spells : spelling = [char] ∨ ((char = '"' ∨ char = '\\') ∧ spelling = ['\\', char])

namespace Cell

theorem utf8Size_le (cell : Cell) : cell.char.utf8Size ≤ byteLen cell.spelling := by
  rcases cell.spells with h | ⟨-, h⟩ <;> rw [h] <;> simp

/-- The map entries of a cell whose spelling starts at `base`: they count back from its end. -/
def entries (base : Nat) (cell : Cell) : List Nat :=
  List.range' (base + (byteLen cell.spelling - cell.char.utf8Size) + 1) cell.char.utf8Size

end Cell

/-- The cell of a character that stands for itself. -/
def Cell.plain (character : Char) : Cell := ⟨character, [character], Or.inl rfl⟩

/-- The cell of an escaped quote or backslash. -/
def Cell.escape (character : Char) (h : character = '"' ∨ character = '\\') : Cell :=
  ⟨character, ['\\', character], Or.inr ⟨h, rfl⟩⟩

/-- The cells of a payload: a backslash escapes a quote or a backslash, stands for itself before any
other character and cannot stand last. -/
def cellsOf : List Char → Option (List Cell)
  | [] => some []
  | character :: rest =>
    if character ≠ '\\' then (cellsOf rest).map (.plain character :: ·)
    else
      match rest with
      | [] => none
      | escaped :: rest =>
        if h : escaped = '"' ∨ escaped = '\\' then (cellsOf rest).map (.escape escaped h :: ·)
        else (cellsOf rest).map (.plain '\\' :: .plain escaped :: ·)

/-- The map entries of cells from `base` on. -/
def entriesFrom (base : Nat) : List Cell → List Nat
  | [] => []
  | cell :: cells => cell.entries base ++ entriesFrom (base + byteLen cell.spelling) cells

/-- The decoded text of some cells. -/
def decodedText (cells : List Cell) : List Char := cells.map Cell.char

/-- The payload of some cells. -/
def payloadText (cells : List Cell) : List Char := cells.flatMap Cell.spelling

@[simp] theorem payloadText_cons (cell : Cell) (cells : List Cell) :
    payloadText (cell :: cells) = cell.spelling ++ payloadText cells := rfl

@[simp] theorem decodedText_cons (cell : Cell) (cells : List Cell) :
    decodedText (cell :: cells) = cell.char :: decodedText cells := rfl

/-! ## Decoding is reading cells -/

theorem mapM_tryU32_range' {base s n : Nat} {entries : List Nat} :
    ((List.range' s n).mapM fun byte => tryU32 (base + byte)) = some entries ↔
      (n = 0 ∨ base + s + n ≤ u32Max + 1) ∧ entries = List.range' (base + s) n := by
  induction n generalizing s entries with
  | zero => simp [eq_comm]
  | succ n ih =>
    simp only [List.range'_succ, List.mapM_cons, Option.pure_def, Option.bind_eq_bind,
      Option.bind_eq_some_iff, tryU32_eq_some_iff, Option.some.injEq]
    constructor
    · rintro ⟨_, ⟨hle, rfl⟩, more, hmore, rfl⟩
      obtain ⟨h, rfl⟩ := ih.mp hmore
      exact ⟨Or.inr (by omega), rfl⟩
    · rintro ⟨h, rfl⟩
      exact ⟨_, ⟨by omega, rfl⟩, _, ih.mpr ⟨by omega, rfl⟩, rfl⟩

theorem pushOffsets_eq_some_iff {base len : Nat} (hpos : 0 < len) {entries : List Nat} :
    pushOffsets base len = some entries ↔
      base + len ≤ u32Max ∧ entries = List.range' (base + 1) len := by
  unfold pushOffsets
  rw [mapM_tryU32_range']
  refine and_congr_left fun _ => ?_
  omega

theorem backslash_utf8Size : Char.utf8Size '\\' = 1 := rfl

theorem plain_entries (base : Nat) (character : Char) :
    (Cell.plain character).entries base = List.range' (base + 1) character.utf8Size := by
  simp [Cell.entries, Cell.plain]

theorem escape_entries (base : Nat) (character : Char) (h : character = '"' ∨ character = '\\') :
    (Cell.escape character h).entries base = List.range' (base + 1 + 1) character.utf8Size := by
  have : byteLen (Cell.escape character h).spelling = 1 + character.utf8Size := by
    simp [Cell.escape, backslash_utf8Size]
  rw [Cell.entries, this]
  simp [Cell.escape]

theorem payload_of_cellsOf {payload : List Char} {cells : List Cell}
    (h : cellsOf payload = some cells) : payload = payloadText cells := by
  fun_induction cellsOf payload generalizing cells with
  | case1 => cases h; rfl
  | case2 character rest hc ih =>
    obtain ⟨more, hm, rfl⟩ := Option.map_eq_some_iff.mp h
    rw [ih hm]; rfl
  | case3 character hc => cases h
  | case4 character hc escaped rest he ih =>
    obtain ⟨more, hm, rfl⟩ := Option.map_eq_some_iff.mp h
    rw [ih hm, Decidable.not_not.mp hc]; rfl
  | case5 character hc escaped rest he ih =>
    obtain ⟨more, hm, rfl⟩ := Option.map_eq_some_iff.mp h
    rw [ih hm, Decidable.not_not.mp hc]; rfl

/-- Without cancellation the decoder reads the cells of the payload, as long as their entries fit
into `u32`. -/
theorem decodePayloadFrom_eq_some_iff {payload decoded : List Char} {entries : List Nat}
    {offset work : Nat} :
    decodePayloadFrom (fun _ => true) payload offset work = some (decoded, entries) ↔
      ∃ cells, cellsOf payload = some cells ∧ decoded = decodedText cells ∧
        entries = entriesFrom (1 + offset) cells ∧
        (payload = [] ∨ 1 + offset + byteLen payload ≤ u32Max) := by
  induction payload using cellsOf.induct generalizing decoded entries offset work with
  | case1 => simp [decodePayloadFrom, cellsOf, decodedText, entriesFrom, eq_comm]
  | case2 character rest hc ih =>
    have hsize := character.utf8Size_pos
    rw [decodePayloadFrom, cellsOf.eq_def]
    simp only [Bool.true_eq_false, and_false, if_false, if_pos hc, Option.bind_eq_bind,
      Option.bind_eq_some_iff, pushOffsets_eq_some_iff hsize, Option.map_eq_some_iff]
    constructor
    · rintro ⟨_, ⟨hle, rfl⟩, ⟨_, _⟩, hrest, heq⟩
      obtain ⟨cells, hcells, rfl, rfl, hfit⟩ := ih.mp hrest
      cases heq
      refine ⟨_, ⟨cells, hcells, rfl⟩, rfl, ?_, Or.inr ?_⟩
      · rw [entriesFrom, plain_entries]
        simp [Cell.plain, Nat.add_assoc]
      · rw [byteLen_cons]
        rcases hfit with rfl | hfit
        · simp only [byteLen_nil]; omega
        · omega
    · rintro ⟨_, ⟨cells, hcells, rfl⟩, rfl, rfl, hfit⟩
      rw [byteLen_cons] at hfit
      simp only [reduceCtorEq, false_or] at hfit
      refine ⟨_, ⟨by omega, rfl⟩, _, ih.mpr ⟨cells, hcells, rfl, rfl, Or.inr (by omega)⟩, ?_⟩
      rw [entriesFrom, plain_entries]
      simp [Cell.plain, Nat.add_assoc]
  | case3 character hc =>
    rw [decodePayloadFrom, cellsOf.eq_def]
    simp [hc]
  | case4 character hc escaped rest he ih =>
    have hsize := escaped.utf8Size_pos
    have hchar := Decidable.not_not.mp hc
    rw [decodePayloadFrom, cellsOf.eq_def]
    simp only [Bool.true_eq_false, and_false, if_false, if_neg hc, Option.bind_eq_bind, if_pos he,
      dif_pos he, Option.bind_eq_some_iff, pushOffsets_eq_some_iff hsize, Option.map_eq_some_iff]
    constructor
    · rintro ⟨_, ⟨hle, rfl⟩, ⟨_, _⟩, hrest, heq⟩
      obtain ⟨cells, hcells, rfl, rfl, hfit⟩ := ih.mp hrest
      cases heq
      refine ⟨_, ⟨cells, hcells, rfl⟩, rfl, ?_, Or.inr ?_⟩
      · rw [entriesFrom, escape_entries]
        simp [Cell.escape, Nat.add_assoc, backslash_utf8Size]
      · rw [byteLen_cons, byteLen_cons, hchar, backslash_utf8Size]
        rcases hfit with rfl | hfit
        · simp only [byteLen_nil]; omega
        · omega
    · rintro ⟨_, ⟨cells, hcells, rfl⟩, rfl, rfl, hfit⟩
      rw [byteLen_cons, byteLen_cons, hchar, backslash_utf8Size] at hfit
      simp only [reduceCtorEq, false_or] at hfit
      refine ⟨_, ⟨by omega, rfl⟩, _, ih.mpr ⟨cells, hcells, rfl, rfl, Or.inr (by omega)⟩, ?_⟩
      rw [entriesFrom, escape_entries]
      simp [Cell.escape, Nat.add_assoc, backslash_utf8Size]
  | case5 character hc escaped rest he ih =>
    have hsize := escaped.utf8Size_pos
    have hchar := Decidable.not_not.mp hc
    rw [decodePayloadFrom, cellsOf.eq_def]
    simp only [Bool.true_eq_false, and_false, if_false, if_neg hc, Option.bind_eq_bind, if_neg he,
      dif_neg he, Option.bind_eq_some_iff, pushOffsets_eq_some_iff hsize, Option.map_eq_some_iff,
      tryU32_eq_some_iff]
    constructor
    · rintro ⟨_, ⟨-, rfl⟩, _, ⟨hle, rfl⟩, ⟨_, _⟩, hrest, heq⟩
      obtain ⟨cells, hcells, rfl, rfl, hfit⟩ := ih.mp hrest
      cases heq
      refine ⟨_, ⟨cells, hcells, rfl⟩, rfl, ?_, Or.inr ?_⟩
      · rw [entriesFrom, entriesFrom, plain_entries, plain_entries]
        simp [Cell.plain, Nat.add_assoc, backslash_utf8Size]
      · rw [byteLen_cons, byteLen_cons, hchar, backslash_utf8Size]
        rcases hfit with rfl | hfit
        · simp only [byteLen_nil]; omega
        · omega
    · rintro ⟨_, ⟨cells, hcells, rfl⟩, rfl, rfl, hfit⟩
      rw [byteLen_cons, byteLen_cons, hchar, backslash_utf8Size] at hfit
      simp only [reduceCtorEq, false_or] at hfit
      refine ⟨_, ⟨by omega, rfl⟩, _, ⟨by omega, rfl⟩, _,
        ih.mpr ⟨cells, hcells, rfl, rfl, Or.inr (by omega)⟩, ?_⟩
      rw [entriesFrom, entriesFrom, plain_entries, plain_entries]
      simp [Cell.plain, Nat.add_assoc, backslash_utf8Size]

/-! ## The map over cells -/

theorem length_entriesFrom (base : Nat) (cells : List Cell) :
    (entriesFrom base cells).length = byteLen (decodedText cells) := by
  induction cells generalizing base with
  | nil => rfl
  | cons cell cells ih =>
    rw [entriesFrom, List.length_append, ih, decodedText_cons, byteLen_cons, Cell.entries,
      List.length_range']

theorem mem_entriesFrom {base : Nat} {cells : List Cell} {entry : Nat}
    (h : entry ∈ entriesFrom base cells) :
    base < entry ∧ entry ≤ base + byteLen (payloadText cells) := by
  induction cells generalizing base with
  | nil => cases h
  | cons cell cells ih =>
    have hle := cell.utf8Size_le
    rw [entriesFrom, List.mem_append] at h
    rw [payloadText_cons, byteLen_append]
    rcases h with h | h
    · rw [Cell.entries, List.mem_range'_1] at h
      omega
    · have := ih h
      omega

/-- The entries ascend strictly from the offset the cells start at. -/
theorem pairwise_entriesFrom (base : Nat) (cells : List Cell) :
    (base :: entriesFrom base cells).Pairwise (· < ·) := by
  rw [List.pairwise_cons]
  refine ⟨fun _ h => (mem_entriesFrom h).1, ?_⟩
  induction cells generalizing base with
  | nil => exact List.Pairwise.nil
  | cons cell cells ih =>
    have hle := cell.utf8Size_le
    rw [entriesFrom, List.pairwise_append]
    refine ⟨?_, ih _, fun a ha b hb => ?_⟩
    · exact List.pairwise_lt_range'
    · rw [Cell.entries, List.mem_range'_1] at ha
      have := (mem_entriesFrom hb).1
      omega

/-- At the decoded end of some cells stands their end in the source. -/
theorem getElem?_entriesFrom (base : Nat) (before after : List Cell) :
    (base :: entriesFrom base (before ++ after))[byteLen (decodedText before)]? =
      some (base + byteLen (payloadText before)) := by
  induction before generalizing base with
  | nil => rfl
  | cons cell before ih =>
    have hle := cell.utf8Size_le
    have hpos := cell.char.utf8Size_pos
    have hlen : (cell.entries base).length = cell.char.utf8Size := by
      rw [Cell.entries, List.length_range']
    -- the end of the first cell is its last entry
    have hlast : (base :: cell.entries base)[cell.char.utf8Size]? =
        some (base + byteLen cell.spelling) := by
      obtain ⟨size, hsize⟩ := Nat.exists_eq_succ_of_ne_zero (Nat.pos_iff_ne_zero.mp hpos)
      rw [hsize, List.getElem?_cons_succ, Cell.entries, hsize,
        List.getElem?_eq_getElem (by simp), List.getElem_range']
      congr 1
      omega
    have hsplit : base :: entriesFrom base (cell :: before ++ after) =
        (base :: cell.entries base) ++
          entriesFrom (base + byteLen cell.spelling) (before ++ after) := rfl
    have ih := ih (base + byteLen cell.spelling)
    rw [decodedText_cons, byteLen_cons, payloadText_cons, byteLen_append, hsplit, ← Nat.add_assoc]
    cases before with
    | nil =>
      rw [List.getElem?_append_left (by rw [List.length_cons, hlen]; simp [decodedText])]
      simpa [decodedText, payloadText] using hlast
    | cons cell' before =>
      have hpos' := cell'.char.utf8Size_pos
      rw [List.getElem?_append_right (by
        rw [List.length_cons, hlen, decodedText_cons, byteLen_cons]; omega)]
      rw [List.length_cons, hlen, ← ih]
      rw [decodedText_cons, byteLen_cons]
      obtain ⟨k, hk⟩ := Nat.exists_eq_succ_of_ne_zero
        (show cell'.char.utf8Size + byteLen (decodedText before) ≠ 0 by omega)
      rw [hk, List.getElem?_cons_succ]
      congr 1
      omega

/-- `partition_point` finds an entry of an ascending map. -/
theorem length_takeWhile_le {entries : List Nat} (h : entries.Pairwise (· < ·)) {d offset : Nat}
    (hd : entries[d]? = some offset) :
    (entries.takeWhile fun candidate => candidate ≤ offset).length = d + 1 := by
  induction entries generalizing d with
  | nil => cases hd
  | cons first entries ih =>
    rw [List.pairwise_cons] at h
    cases d with
    | zero =>
      rw [List.getElem?_cons_zero, Option.some.injEq] at hd
      subst hd
      rw [List.takeWhile_cons_of_pos (by simp)]
      cases entries with
      | nil => rfl
      | cons second entries =>
        have := h.1 second (by simp)
        rw [List.takeWhile_cons_of_neg (by simp [this])]
        rfl
    | succ d =>
      rw [List.getElem?_cons_succ] at hd
      have := h.1 offset (List.mem_of_getElem? hd)
      rw [List.takeWhile_cons_of_pos (by simp; omega), List.length_cons, ih h.2 hd]

theorem decodedText_append (before after : List Cell) :
    decodedText (before ++ after) = decodedText before ++ decodedText after := List.map_append

theorem payloadText_append (before after : List Cell) :
    payloadText (before ++ after) = payloadText before ++ payloadText after := List.flatMap_append

theorem byteLen_decodedText_le (cells : List Cell) :
    byteLen (decodedText cells) ≤ byteLen (payloadText cells) := by
  induction cells with
  | nil => exact le_rfl
  | cons cell cells ih =>
    rw [decodedText_cons, payloadText_cons, byteLen_cons, byteLen_append]
    exact Nat.add_le_add cell.utf8Size_le ih

/-- The map of a decoded scalar is exact: `source` is the quoted payload of `cells`, and the map
sends the decoded boundaries of the cells to their boundaries in the source and back. -/
structure ExactMap (source decoded : List Char) (map : QuotedScriptSourceMap) (cells : List Cell) :
    Prop where
  cells_eq : cellsOf (payloadText cells) = some cells
  source_eq : source = '"' :: payloadText cells ∨ source = '"' :: payloadText cells ++ ['"']
  decoded_eq : decoded = decodedText cells
  length_eq : map.decodedToSource.length = byteLen decoded + 1
  ascending : map.decodedToSource.Pairwise (· < ·)
  boundary : ∀ before after, cells = before ++ after →
    map.decodedOffset (byteLen (decodedText before)) = some (byteLen ('"' :: payloadText before))
  inverse : ∀ offset ≤ byteLen decoded, ∃ target,
    map.decodedOffset offset = some target ∧ map.sourceOffset target = some offset
  selects : ∀ before window after, cells = before ++ window ++ after → ∀ range,
    range.start = byteLen (decodedText before) →
    range.stop = byteLen (decodedText before) + byteLen (decodedText window) →
    ∃ target, map.decodedRange range = some target ∧
      sliceBytes source target.start target.stop = Utf8.encode (payloadText window)

theorem quote_utf8Size : Char.utf8Size '"' = 1 := rfl

theorem exactMap_of_cells {source : List Char} {cells : List Cell}
    (hcells : cellsOf (payloadText cells) = some cells)
    (hsource : source = '"' :: payloadText cells ∨ source = '"' :: payloadText cells ++ ['"'])
    (hfit : byteLen source ≤ u32Max) :
    ExactMap source (decodedText cells) ⟨1 :: entriesFrom 1 cells, byteLen source⟩ cells := by
  have hlen : 1 + byteLen (payloadText cells) ≤ byteLen source := by
    rcases hsource with h | h <;> rw [h] <;> simp [quote_utf8Size]
  have hasc := pairwise_entriesFrom 1 cells
  have hlength : (1 :: entriesFrom 1 cells).length = byteLen (decodedText cells) + 1 := by
    rw [List.length_cons, length_entriesFrom]
  have hboundary : ∀ before after, cells = before ++ after →
      (1 :: entriesFrom 1 cells)[byteLen (decodedText before)]? =
        some (byteLen ('"' :: payloadText before)) := by
    rintro before after rfl
    rw [getElem?_entriesFrom, byteLen_cons, quote_utf8Size]
  refine ⟨hcells, hsource, rfl, hlength, hasc, hboundary, ?_, ?_⟩
  · intro offset hoffset
    have hdec := byteLen_decodedText_le cells
    have hlt : offset < (1 :: entriesFrom 1 cells).length := by omega
    have htarget := List.getElem?_eq_getElem hlt
    refine ⟨_, htarget, ?_⟩
    have hle : (1 :: entriesFrom 1 cells)[offset] ≤ byteLen source := by
      rcases List.mem_cons.mp (List.getElem_mem hlt) with h | h
      · omega
      · have := (mem_entriesFrom h).2
        omega
    unfold QuotedScriptSourceMap.sourceOffset
    rw [if_neg (by simpa using hle), length_takeWhile_le hasc htarget, Nat.add_sub_cancel]
    exact tryU32_eq_some_iff.mpr ⟨by omega, rfl⟩
  · rintro before window after rfl range hstart hstop
    have h₁ := hboundary before (window ++ after) (List.append_assoc ..)
    have h₂ := hboundary (before ++ window) after rfl
    rw [decodedText_append, byteLen_append, payloadText_append, ← List.cons_append,
      byteLen_append] at h₂
    refine ⟨⟨byteLen ('"' :: payloadText before),
      byteLen ('"' :: payloadText before) + byteLen (payloadText window), Nat.le_add_right _ _⟩,
      ?_, ?_⟩
    · simp only [QuotedScriptSourceMap.decodedRange, QuotedScriptSourceMap.decodedOffset, hstart,
        hstop, h₁, h₂, TextRange.new, Nat.le_add_right, dif_pos]
    · dsimp only
      rcases hsource with h | h
      · rw [h, payloadText_append, payloadText_append, ← List.cons_append, ← List.cons_append,
          sliceBytes_append]
      · rw [h, payloadText_append, payloadText_append, ← List.cons_append, ← List.cons_append,
          List.append_assoc, sliceBytes_append]

/-! ## Decoding a quoted source -/

/-- The text between the quotes that `decode_quoted_script` decodes. -/
theorem decodeQuotedScript_eq_some {source decoded : List Char} {map : QuotedScriptSourceMap}
    (h : decodeQuotedScript source = some (decoded, map)) :
    ∃ payload, (source = '"' :: payload ∨ source = '"' :: payload ++ ['"']) ∧
      decodePayload payload (byteLen source) = some (decoded, map) := by
  unfold decodeQuotedScript at h
  split at h
  · rename_i payload
    split_ifs at h with hclosed hlast
    · refine ⟨payload.dropLast, Or.inr ?_, h⟩
      rw [List.cons_append, List.dropLast_append_getLast? _ hlast]
    · exact ⟨payload, Or.inl rfl, h⟩
  · cases h

theorem decodePayload_eq_some_iff {payload decoded : List Char} {len : Nat}
    {map : QuotedScriptSourceMap} (hlen : byteLen payload < len) :
    decodePayload payload len = some (decoded, map) ↔
      ∃ cells, cellsOf payload = some cells ∧ len ≤ u32Max ∧ decoded = decodedText cells ∧
        map = ⟨1 :: entriesFrom 1 cells, len⟩ := by
  unfold decodePayload decodePayloadWithCheckpoint
  simp only [Option.bind_eq_bind, Option.bind_eq_some_iff, tryU32_eq_some_iff]
  constructor
  · rintro ⟨⟨_, _⟩, hfrom, _, ⟨hle, rfl⟩, heq⟩
    obtain ⟨cells, hcells, rfl, rfl, -⟩ := decodePayloadFrom_eq_some_iff.mp hfrom
    cases heq
    exact ⟨cells, hcells, hle, rfl, rfl⟩
  · rintro ⟨cells, hcells, hle, rfl, rfl⟩
    exact ⟨_, decodePayloadFrom_eq_some_iff.mpr ⟨cells, hcells, rfl, rfl, Or.inr (by omega)⟩, _,
      ⟨hle, rfl⟩, rfl⟩

/-- The number of backslashes a text ends with. -/
def trailingBackslashes (text : List Char) : Nat :=
  ((Utf8.encode text).reverse.takeWhile fun byte => byte == 0x5C).length

theorem ne_backslash_of_mem_encodeChar {c : Char} (hc : c ≠ '\\') {b : UInt8}
    (hb : b ∈ String.utf8EncodeChar c) : b ≠ 0x5C := by
  rintro rfl
  rcases Nat.lt_or_ge c.toNat 0x80 with h | h
  · rw [Utf8.encodeChar_ascii h, List.mem_singleton] at hb
    have hb := congrArg UInt8.toNat hb
    rw [Utf8.toNat_byte (by omega)] at hb
    apply hc
    rw [← Utf8.charOf_toNat c, ← hb]
    rfl
  · have := Utf8.le_of_mem_encodeChar h hb
    revert this
    decide

theorem trailingBackslashes_append {c : Char} (hc : c ≠ '\\') (text : List Char) :
    trailingBackslashes (text ++ [c]) = 0 := by
  unfold trailingBackslashes
  rw [Utf8.encode_append, Utf8.encode_cons, Utf8.encode_nil, List.append_nil, List.reverse_append]
  cases hrev : (String.utf8EncodeChar c).reverse with
  | nil =>
    have := congrArg List.length hrev
    have := Utf8.length_encodeChar_pos c
    simp only [List.length_reverse, List.length_nil] at *
    omega
  | cons b bs =>
    have hb : b ≠ 0x5C := ne_backslash_of_mem_encodeChar hc
      (List.mem_reverse.mp (by rw [hrev]; simp))
    rw [List.cons_append, List.takeWhile_cons_of_neg (by simpa using hb)]
    rfl

theorem trailingBackslashes_backslash (text : List Char) :
    trailingBackslashes (text ++ ['\\']) = trailingBackslashes text + 1 := by
  unfold trailingBackslashes
  rw [Utf8.encode_append, List.reverse_append]
  have : (Utf8.encode ['\\']).reverse = [0x5C] := by decide
  rw [this, List.singleton_append, List.takeWhile_cons_of_pos (by decide), List.length_cons]

theorem closingQuoteIsEscaped_append (text : List Char) :
    closingQuoteIsEscaped (text ++ ['"']) = (trailingBackslashes text % 2 == 1) := by
  unfold closingQuoteIsEscaped trailingBackslashes
  have : Utf8.encode ['"'] = [0x22] := by decide
  rw [Utf8.encode_append, this, List.dropLast_concat]

theorem encodeQuotedScriptText_append (text more : List Char) :
    encodeQuotedScriptText (text ++ more) =
      encodeQuotedScriptText text ++ encodeQuotedScriptText more := List.flatMap_append

/-- Encoded text ends with an even number of backslashes, so the quote behind it closes. -/
theorem trailingBackslashes_encode (text : List Char) :
    trailingBackslashes ('"' :: encodeQuotedScriptText text) % 2 = 0 := by
  induction text using List.reverseRecOn with
  | nil => decide
  | append_singleton text c ih =>
    rw [encodeQuotedScriptText_append]
    by_cases hquote : c = '"'
    · subst hquote
      have : '"' :: (encodeQuotedScriptText text ++ encodeQuotedScriptText ['"']) =
          ('"' :: encodeQuotedScriptText text ++ ['\\']) ++ ['"'] := by
        simp [encodeQuotedScriptText]
      rw [this, trailingBackslashes_append (by decide)]
    by_cases hslash : c = '\\'
    · subst hslash
      have : '"' :: (encodeQuotedScriptText text ++ encodeQuotedScriptText ['\\']) =
          ('"' :: encodeQuotedScriptText text ++ ['\\']) ++ ['\\'] := by
        simp [encodeQuotedScriptText]
      rw [this, trailingBackslashes_backslash, trailingBackslashes_backslash]
      omega
    · have : '"' :: (encodeQuotedScriptText text ++ encodeQuotedScriptText [c]) =
          ('"' :: encodeQuotedScriptText text) ++ [c] := by
        simp [encodeQuotedScriptText, hquote, hslash]
      rw [this, trailingBackslashes_append hslash]

/-- The cell an encoded character is read as. -/
def encodedCell (c : Char) : Cell :=
  if h : c = '"' ∨ c = '\\' then .escape c h else .plain c

theorem cellsOf_plain {c : Char} (h : c ≠ '\\') (rest : List Char) :
    cellsOf (c :: rest) = (cellsOf rest).map (.plain c :: ·) := by
  rw [cellsOf.eq_def]
  simp only [if_pos h]

theorem cellsOf_escape {c : Char} (h : c = '"' ∨ c = '\\') (rest : List Char) :
    cellsOf ('\\' :: c :: rest) = (cellsOf rest).map (.escape c h :: ·) := by
  rw [cellsOf.eq_def]
  simp only [ne_eq, not_true_eq_false, if_false, dif_pos h]

theorem encodeQuotedScriptText_cons (c : Char) (text : List Char) :
    encodeQuotedScriptText (c :: text) = (encodedCell c).spelling ++
      encodeQuotedScriptText text := by
  unfold encodedCell
  by_cases hquote : c = '"'
  · subst hquote; rfl
  by_cases hslash : c = '\\'
  · subst hslash; rfl
  · rw [dif_neg (by simp [hquote, hslash])]
    simp [encodeQuotedScriptText, Cell.plain, hquote, hslash]

theorem cellsOf_encode (text : List Char) :
    cellsOf (encodeQuotedScriptText text) = some (text.map encodedCell) := by
  induction text with
  | nil => rfl
  | cons c text ih =>
    rw [encodeQuotedScriptText_cons, List.map_cons]
    by_cases h : c = '"' ∨ c = '\\'
    · rw [show encodedCell c = .escape c h from dif_pos h, Cell.escape, List.cons_append,
        List.singleton_append, cellsOf_escape h, ih]
      rfl
    · rw [show encodedCell c = .plain c from dif_neg h, Cell.plain, List.singleton_append,
        cellsOf_plain (fun hc => h (Or.inr hc)), ih]
      rfl

theorem decodedText_encodedCell (text : List Char) : decodedText (text.map encodedCell) = text := by
  unfold decodedText
  rw [List.map_map]
  refine (List.map_congr_left fun c _ => ?_).trans (List.map_id text)
  unfold Function.comp encodedCell
  split_ifs <;> rfl

/-- The quoted scalar that carries a text. -/
def quoteText (text : List Char) : List Char := '"' :: encodeQuotedScriptText text ++ ['"']

theorem decodeQuotedScript_quoteText (text : List Char) :
    decodeQuotedScript (quoteText text) =
      decodePayload (encodeQuotedScriptText text) (byteLen (quoteText text)) := by
  have hclosed : closingQuoteIsEscaped (quoteText text) = false := by
    rw [quoteText, closingQuoteIsEscaped_append, trailingBackslashes_encode]
    rfl
  have hlast : (quoteText text).getLast? = some '"' := by rw [quoteText, List.getLast?_concat]
  unfold decodeQuotedScript
  split
  · rename_i payload heq
    have hpayload : payload = encodeQuotedScriptText text ++ ['"'] := (List.cons.inj heq).2.symm
    rw [if_pos ⟨hlast, hclosed⟩, hpayload, if_pos (by simp), List.dropLast_concat]
  · rename_i h
    exact absurd rfl (h (encodeQuotedScriptText text ++ ['"']))

/-- The quoted-script source map is exact, and every text whose quoted form fits into `u32` is read
back from it. -/
theorem decodeQuotedScript_exact :
    (∀ source decoded map, decodeQuotedScript source = some (decoded, map) →
      ∃ cells, ExactMap source decoded map cells) ∧
    (∀ text, byteLen (quoteText text) ≤ u32Max →
      ∃ map, decodeQuotedScript (quoteText text) = some (text, map)) ∧
    (∀ text, u32Max < byteLen (quoteText text) → decodeQuotedScript (quoteText text) = none) := by
  have hquoted : ∀ text, byteLen (encodeQuotedScriptText text) < byteLen (quoteText text) := by
    intro text
    simp [quoteText, quote_utf8Size]
    omega
  refine ⟨fun source decoded map h => ?_, fun text hfit => ?_, fun text hfit => ?_⟩
  · obtain ⟨payload, hsource, hp⟩ := decodeQuotedScript_eq_some h
    have hlt : byteLen payload < byteLen source := by
      rcases hsource with rfl | rfl <;> simp [quote_utf8Size]
      omega
    obtain ⟨cells, hcells, hle, rfl, rfl⟩ := (decodePayload_eq_some_iff hlt).mp hp
    obtain rfl := payload_of_cellsOf hcells
    exact ⟨cells, exactMap_of_cells hcells hsource hle⟩
  · rw [decodeQuotedScript_quoteText]
    exact ⟨_, (decodePayload_eq_some_iff (hquoted text)).mpr
      ⟨_, cellsOf_encode text, hfit, (decodedText_encodedCell text).symm, rfl⟩⟩
  · rw [decodeQuotedScript_quoteText, Option.eq_none_iff_forall_ne_some]
    rintro ⟨decoded, map⟩ h
    obtain ⟨-, -, hle, -⟩ := (decodePayload_eq_some_iff (hquoted text)).mp h
    omega

/-- A token with an escaped quote, a character of three bytes and no closing quote, and a text. -/
theorem decodeQuotedScript_exact_escape :
    (∃ cells, ExactMap ['"', '\\', '"', Char.ofNat 0x754C] ['"', Char.ofNat 0x754C]
      ⟨[1, 3, 4, 5, 6], 6⟩ cells) ∧
    ∃ map, decodeQuotedScript (quoteText ['a', '"']) = some (['a', '"'], map) :=
  ⟨decodeQuotedScript_exact.1 _ _ _ (by decide), decodeQuotedScript_exact.2.1 _ (by decide)⟩

end ParadoxCode.Parser
