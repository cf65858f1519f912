import Mathlib.Tactic.Ring
import ParadoxCode.Index.FileState
import ParadoxCode.Engine.TemplateCodec

/-!
# Position payloads

`position_codec.rs`: the editor positions of a file in variable-length numbers, sorted by range.
What is written is read back (`decode_encode`). The reader's cursor is what is left of the payload.
-/

def ParadoxCode.Engine.Cache.maxCacheSymbols : Nat := 5000000

namespace ParadoxCode.Engine.PositionCodec

open Index

/-! ## Numbers -/

/-- `push_varint`: seven bits in a byte, the low ones first. -/
def pushVarint (value : Nat) : List UInt8 :=
  if h : value / 128 = 0 then [UInt8.ofNat (value % 128)]
  else UInt8.ofNat (value % 128 + 128) :: pushVarint (value / 128)
termination_by value
decreasing_by omega

/-- `push_zigzag`: the sign is the low bit. -/
def pushZigzag (value : Int) : List UInt8 :=
  pushVarint (if value < 0 then ~~~(2 * value) else 2 * value).toNat

/-- `read_varint`, at the shifts that are left. -/
def readVarintFrom (value : Nat) : List Nat → List UInt8 → Except IndexCacheError (Nat × List UInt8)
  | [], _ => .error (.invalidData "navigation position varint exceeds u64".toList)
  | _ :: _, [] => .error (.invalidData "truncated navigation position varint".toList)
  | shift :: shifts, byte :: bytes =>
    if 64 - 7 ≤ shift ∧ 1 < byte.toNat then
      .error (.invalidData "navigation position varint exceeds u64".toList)
    else
      -- the seven bits lie above those of `value`
      let value := value + byte.toNat % 128 * 2 ^ shift
      if byte.toNat < 128 then .ok (value, bytes) else readVarintFrom value shifts bytes

def readVarint (bytes : List UInt8) : Except IndexCacheError (Nat × List UInt8) :=
  readVarintFrom 0 ((List.range 10).map (7 * ·)) bytes

/-- `read_zigzag`. -/
def readZigzag (bytes : List UInt8) : Except IndexCacheError (Int × List UInt8) :=
  (readVarint bytes).map fun (value, bytes) =>
    (if value % 2 = 1 then ~~~((value / 2 : Nat) : Int) else ((value / 2 : Nat) : Int), bytes)

/-- `u32::try_from` with an error. -/
def readU32 (value : Int) (error : String) : Except IndexCacheError Nat :=
  if 0 ≤ value ∧ value ≤ u32Max then .ok value.toNat else .error (.invalidData error.toList)

/-! ## Entries -/

/-- The derived order of positions. -/
def Position.lt (left right : Position) : Prop :=
  left.line < right.line ∨ left.line = right.line ∧ left.character < right.character

instance (left right : Position) : Decidable (Position.lt left right) :=
  inferInstanceAs (Decidable (_ ∨ _ ∧ _))

/-- Whether a range does not follow the previous one. -/
def regresses (previous : Option TextRange) (range : TextRange) : Bool :=
  previous.any fun previous =>
    range.start < previous.start || (range.start == previous.start && range.stop ≤ previous.stop)

def previousStart (previous : Option TextRange) : Nat := (previous.map TextRange.start).getD 0

def encodeEntry (previous : Option TextRange) (entry : TextRange × PositionRange) :
    Except IndexCacheError (List UInt8) :=
  let (range, position) := entry
  if Position.lt position.stop position.start then
    .error (.invalidData "navigation position end precedes start".toList)
  else if regresses previous range then
    .error (.invalidData "navigation positions are not strictly ordered".toList)
  else
    .ok (pushVarint (range.start - previousStart previous) ++
      pushVarint (range.stop - range.start) ++ pushVarint position.start.line ++
      pushZigzag position.start.character ++ pushVarint
      (position.stop.line - position.start.line) ++ pushZigzag
      ((position.stop.character : Int) - position.start.character))

def encodeEntries (previous : Option TextRange) :
    List (TextRange × PositionRange) → Except IndexCacheError (List UInt8)
  | [] => .ok []
  | entry :: entries => do
    let bytes ← encodeEntry previous entry
    let more ← encodeEntries (some entry.1) entries
    .ok (bytes ++ more)

def encode (entries : List (TextRange × PositionRange)) : Except IndexCacheError (List UInt8) :=
  if Cache.maxCacheSymbols < entries.length then
    .error (.limitExceeded "navigation position" Cache.maxCacheSymbols)
  else do
    let bytes ← encodeEntries none entries
    .ok (1 :: pushVarint entries.length ++ bytes)

def decodeEntry (previous : Option TextRange) (bytes : List UInt8) :
    Except IndexCacheError ((TextRange × PositionRange) × List UInt8) := do
  let (delta, bytes) ← readVarint bytes
  let delta ← readU32 delta "navigation range start exceeds u32"
  let start ← readU32 (previousStart previous + delta) "navigation range start overflows"
  let (length, bytes) ← readVarint bytes
  let length ← readU32 length "navigation range length exceeds u32"
  let stop ← readU32 (start + length) "navigation range end overflows"
  let (startLine, bytes) ← readVarint bytes
  let startLine ← readU32 startLine "navigation start line exceeds u32"
  let (startCharacter, bytes) ← readZigzag bytes
  let startCharacter ← readU32 startCharacter "navigation start character exceeds u32"
  let (lineDelta, bytes) ← readVarint bytes
  let lineDelta ← readU32 lineDelta "navigation end line delta exceeds u32"
  let endLine ← readU32 (startLine + lineDelta) "navigation end line overflows"
  let (characterDelta, bytes) ← readZigzag bytes
  let endCharacter ← readU32 (startCharacter + characterDelta)
    "navigation end character exceeds u32"
  match TextRange.new start stop with
  | none => .error (.invalidData "invalid navigation range".toList)
  | some range =>
    if regresses previous range then
      .error (.invalidData "navigation positions are not strictly ordered".toList)
    else .ok ((range, ⟨⟨startLine, startCharacter⟩, ⟨endLine, endCharacter⟩⟩), bytes)

def decodeEntries : Nat → Option TextRange → List UInt8 →
    Except IndexCacheError (List (TextRange × PositionRange) × List UInt8)
  | 0, _, bytes => .ok ([], bytes)
  | count + 1, previous, bytes => do
    let (entry, bytes) ← decodeEntry previous bytes
    let (entries, bytes) ← decodeEntries count (some entry.1) bytes
    .ok (entry :: entries, bytes)

def decode (payload : List UInt8) : Except IndexCacheError (List (TextRange × PositionRange)) :=
  match payload with
  | [] => .error (.invalidData "empty navigation position payload".toList)
  | version :: bytes =>
    if version ≠ 1 then
      .error (.invalidData ("unsupported navigation position codec version ".toList ++
        Nat.toDigits 10 version.toNat))
    else do
      let (count, bytes) ← readVarint bytes
      if Cache.maxCacheSymbols < count then
        .error (.limitExceeded "navigation position" Cache.maxCacheSymbols)
      else
        let (entries, bytes) ← decodeEntries count none bytes
        if bytes = [] then .ok entries
        else .error (.invalidData "navigation position payload has trailing bytes".toList)

/-! ## Numbers are read back -/

/-- Reading goes on where the written number goes on. -/
theorem readVarintFrom_pushVarint (n : Nat) : ∀ (shift value count : Nat) (rest : List UInt8),
    n * 2 ^ shift < 2 ^ 64 → 7 * count = shift → count < 10 →
    readVarintFrom value ((List.range' count (10 - count)).map (7 * ·)) (pushVarint n ++ rest) =
      .ok (value + n * 2 ^ shift, rest) := by
  induction n using Nat.strongRecOn with
  | ind n ih =>
    intro shift value count rest hn hshift hcount
    obtain ⟨left, hleft⟩ : ∃ left, 10 - count = left + 1 := ⟨9 - count, by omega⟩
    have hpow : (0 : Nat) < 2 ^ shift := Nat.pow_pos (by decide)
    -- the tenth byte holds the last bit
    have hlast : 57 ≤ shift → n ≤ 1 := by
      intro h57
      obtain rfl : shift = 63 := by omega
      omega
    rw [hleft, List.range'_succ, List.map_cons, pushVarint, hshift]
    split_ifs with hsmall
    · have hbyte : (UInt8.ofNat (n % 128)).toNat = n := by
        rw [UInt8.toNat_ofNat']
        omega
      rw [List.singleton_append, readVarintFrom, hbyte,
        if_neg (fun h => by have := hlast h.1; omega), if_pos (by omega),
        Nat.mod_eq_of_lt (by omega)]
    · have hbyte : (UInt8.ofNat (n % 128 + 128)).toNat = n % 128 + 128 := by
        rw [UInt8.toNat_ofNat']
        omega
      have hshift57 : ¬ 57 ≤ shift := fun h => by have := hlast h; omega
      rw [List.cons_append, readVarintFrom, hbyte, if_neg (fun h => hshift57 h.1),
        if_neg (by omega),
        show left = 10 - (count + 1) by omega]
      have hsplit : n * 2 ^ shift = n % 128 * 2 ^ shift + n / 128 * 2 ^ (shift + 7) := by
        have hn : n = n % 128 + n / 128 * 128 := by omega
        calc n * 2 ^ shift = (n % 128 + n / 128 * 128) * 2 ^ shift := by rw [← hn]
          _ = n % 128 * 2 ^ shift + n / 128 * 2 ^ (shift + 7) := by ring
      rw [ih (n / 128) (by omega) (shift + 7) _ (count + 1) rest (by omega) (by omega) (by omega),
        hsplit]
      have hadd : (n % 128 + 128) % 128 = n % 128 := by omega
      rw [hadd, Nat.add_assoc]

theorem readVarint_pushVarint {n : Nat} (hn : n < 2 ^ 64) (rest : List UInt8) :
    readVarint (pushVarint n ++ rest) = .ok (n, rest) := by
  have hread := readVarintFrom_pushVarint n 0 0 0 rest (by omega) rfl (by decide)
  rw [Nat.zero_add, Nat.pow_zero, Nat.mul_one] at hread
  exact hread

theorem complement_eq (n : Int) : ~~~n = -n - 1 := by
  cases n with
  | ofNat n =>
    show Int.negSucc n = -(n : Int) - 1
    omega
  | negSucc n =>
    show (n : Int) = -Int.negSucc n - 1
    omega

theorem readZigzag_pushZigzag {value : Int} (h : -(2 ^ 63) ≤ value ∧ value < 2 ^ 63)
    (rest : List UInt8) : readZigzag (pushZigzag value ++ rest) = .ok (value, rest) := by
  unfold readZigzag pushZigzag
  split_ifs with hneg
  · rw [complement_eq, readVarint_pushVarint (by omega)]
    simp only [Except.map, complement_eq]
    rw [if_pos (by omega)]
    congr 2
    omega
  · rw [readVarint_pushVarint (by omega)]
    simp only [Except.map]
    rw [if_neg (by omega)]
    congr 2
    omega

theorem readU32_ok {value : Nat} (h : value ≤ u32Max) (error : String) :
    readU32 (value : Int) error = .ok value := by
  unfold readU32
  rw [if_pos ⟨by omega, by exact_mod_cast h⟩, Int.toNat_natCast]

/-! ## Entries are read back -/

/-- What the integer types promise of an entry. -/
structure Fits (entry : TextRange × PositionRange) : Prop where
  range : entry.1.stop ≤ u32Max
  startLine : entry.2.start.line ≤ u32Max
  startCharacter : entry.2.start.character ≤ u32Max
  stopLine : entry.2.stop.line ≤ u32Max
  stopCharacter : entry.2.stop.character ≤ u32Max

theorem regresses_eq_false {previous : Option TextRange} {range : TextRange}
    (h : regresses previous range = false) : previousStart previous ≤ range.start := by
  cases previous with
  | none => exact Nat.zero_le _
  | some previous =>
    simp only [regresses, Option.any_some, Bool.or_eq_false_iff, decide_eq_false_iff_not] at h
    exact Nat.le_of_not_lt h.1

theorem not_lt_line {left right : Position} (h : ¬ Position.lt left right) :
    right.line ≤ left.line := by
  unfold Position.lt at h
  omega

theorem decodeEntry_encodeEntry {previous : Option TextRange} {entry : TextRange × PositionRange}
    {bytes : List UInt8} (hfits : Fits entry) (h : encodeEntry previous entry = .ok bytes)
    (rest : List UInt8) : decodeEntry previous (bytes ++ rest) = .ok (entry, rest) := by
  obtain ⟨range, ⟨startLine, startCharacter⟩, ⟨stopLine, stopCharacter⟩⟩ := entry
  obtain ⟨hrange, hstartLine, hstartCharacter, hstopLine, hstopCharacter⟩ := hfits
  dsimp only at hrange hstartLine hstartCharacter hstopLine hstopCharacter
  unfold encodeEntry at h
  dsimp only at h
  split_ifs at h with hlt hregresses
  obtain rfl := Except.ok.inj h
  have hprevious := regresses_eq_false (Bool.not_eq_true _ ▸ hregresses)
  have hline : startLine ≤ stopLine := not_lt_line hlt
  have hle := range.le
  have hmax : u32Max < 2 ^ 32 := by decide
  have hstart : ((previousStart previous : Int) +
    ((range.start - previousStart previous : Nat) : Int)) =
      (range.start : Int) := by
    omega
  have hstop : ((range.start : Int) + ((range.stop - range.start : Nat) : Int)) =
    (range.stop : Int) := by
    omega
  have hlines : ((startLine : Int) + ((stopLine - startLine : Nat) : Int)) = (stopLine : Int) := by
    omega
  have hcharacters : ((startCharacter : Int) + ((stopCharacter : Int) - startCharacter)) =
      (stopCharacter : Int) := by
    omega
  unfold decodeEntry
  simp only [List.append_assoc, readVarint_pushVarint
    (show range.start - previousStart previous < 2 ^ 64 by omega),
    readVarint_pushVarint (show range.stop - range.start < 2 ^ 64 by omega),
    readVarint_pushVarint (show startLine < 2 ^ 64 by omega),
    readVarint_pushVarint (show stopLine - startLine < 2 ^ 64 by omega),
    readZigzag_pushZigzag (show -(2 ^ 63) ≤ (startCharacter : Int) ∧
      (startCharacter : Int) < 2 ^ 63 by omega),
    readZigzag_pushZigzag (show -(2 ^ 63) ≤ (stopCharacter : Int) - startCharacter ∧
      (stopCharacter : Int) - startCharacter < 2 ^ 63 by omega),
    readU32_ok (show range.start - previousStart previous ≤ u32Max by omega),
    readU32_ok (show range.stop - range.start ≤ u32Max by omega),
    readU32_ok (show range.start ≤ u32Max by omega), readU32_ok hrange, readU32_ok hstartLine,
    readU32_ok hstartCharacter, readU32_ok (show stopLine - startLine ≤ u32Max by omega),
    readU32_ok hstopLine, readU32_ok hstopCharacter, hstart, hstop, hlines, hcharacters,
    bind, Except.bind]
  rw [TextRange.new, dif_pos range.le]
  simp only [hregresses]
  rfl

theorem decodeEntries_encodeEntries {entries : List (TextRange × PositionRange)} :
    ∀ {previous : Option TextRange} {bytes : List UInt8}, (∀ entry ∈ entries, Fits entry) →
      encodeEntries previous entries = .ok bytes →
      ∀ rest, decodeEntries entries.length previous (bytes ++ rest) = .ok (entries, rest) := by
  induction entries with
  | nil =>
    intro previous bytes _ h rest
    obtain rfl := Except.ok.inj h
    rfl
  | cons entry entries ih =>
    intro previous bytes hfits h rest
    rw [List.forall_mem_cons] at hfits
    unfold encodeEntries at h
    rcases hentry : encodeEntry previous entry with e | first
    · rw [hentry] at h
      cases h
    rcases hmore : encodeEntries (some entry.1) entries with e | more
    · rw [hentry, hmore] at h
      cases h
    rw [hentry, hmore] at h
    obtain rfl := Except.ok.inj h
    rw [List.length_cons, decodeEntries, List.append_assoc, decodeEntry_encodeEntry hfits.1 hentry]
    simp only [bind, Except.bind, ih hfits.2 hmore]

/-- Positions that were written are read back. -/
theorem decode_encode {entries : List (TextRange × PositionRange)} {payload : List UInt8}
    (hfits : ∀ entry ∈ entries, Fits entry) (h : encode entries = .ok payload) :
    decode payload = .ok entries := by
  unfold encode at h
  split_ifs at h with hcount
  rcases hbytes : encodeEntries none entries with e | bytes
  · rw [hbytes] at h
    cases h
  rw [hbytes] at h
  obtain rfl := Except.ok.inj h
  have hmax : Cache.maxCacheSymbols < 2 ^ 64 := by decide
  have hread := decodeEntries_encodeEntries hfits hbytes []
  rw [List.append_nil] at hread
  unfold decode
  rw [List.cons_append]
  dsimp only
  rw [if_neg (by decide), readVarint_pushVarint (by omega)]
  simp only [bind, Except.bind]
  rw [if_neg hcount, hread]
  rfl

end ParadoxCode.Engine.PositionCodec
