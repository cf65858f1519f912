import Mathlib.Algebra.Order.Ring.Nat
import ParadoxCode.Engine.PositionOrder

/-!
# Overflows of the position reader

The reader of `position_codec.rs` in a build that checks its arithmetic. Shifts, signs and the sums
of the unsigned fields stay in their types; the sum of the start character and the delta of the end
character need not (`decodeChecked_iff`).
-/

namespace ParadoxCode.Engine.PositionCodec

open Index

/-! ## Checked operations -/

/-- Results of a checked build: an operation that leaves its type has none. -/
abbrev Checked := ExceptT IndexCacheError Option

/-- An operation panics. -/
def overflowed {α : Type} : Checked α := ExceptT.mk none

/-- What does not compute outside a type. -/
def plain {α : Type} (result : Except IndexCacheError α) : Checked α := ExceptT.mk (some result)

/-- `<<` on `u64`, with no bit lost. -/
def shlU64 (value shift : Nat) : Checked Nat :=
  if shift < 64 ∧ value * 2 ^ shift < 2 ^ 64 then pure (value * 2 ^ shift) else overflowed

/-- A value of `i64`. -/
def checkI64 (value : Int) : Checked Int := if -(2 ^ 63) ≤ value ∧ value < 2 ^ 63 then
    pure value else overflowed

/-- `^` with the sign of a number, zero or minus one. -/
def xorSign (value sign : Int) : Int := if sign = -1 then ~~~value else value

def readVarintFromChecked (value : Nat) : List Nat → List UInt8 → Checked (Nat × List UInt8)
  | [], _ => plain (.error (.invalidData "navigation position varint exceeds u64".toList))
  | _ :: _, [] => plain (.error (.invalidData "truncated navigation position varint".toList))
  | shift :: shifts, byte :: bytes =>
    if 64 - 7 ≤ shift ∧ 1 < byte.toNat then
      plain (.error (.invalidData "navigation position varint exceeds u64".toList))
    else do
      let bits ← shlU64 (byte.toNat % 128) shift
      if byte.toNat < 128 then pure (value ||| bits, bytes) else
        readVarintFromChecked (value ||| bits) shifts bytes

def readVarintChecked (bytes : List UInt8) : Checked (Nat × List UInt8) :=
  readVarintFromChecked 0 ((List.range 10).map (7 * ·)) bytes

def readZigzagChecked (bytes : List UInt8) : Checked (Int × List UInt8) := do
  let (value, bytes) ← readVarintChecked bytes
  let half ← checkI64 (value / 2 : Nat)
  let sign ← checkI64 (-((value % 2 : Nat) : Int))
  pure (xorSign half sign, bytes)

/-- A round of the loop of `decode`. -/
def decodeEntryChecked (previous : Option TextRange) (bytes : List UInt8) :
    Checked ((TextRange × PositionRange) × List UInt8) := do
  let (delta, bytes) ← readVarintChecked bytes
  let delta ← plain (readU32 delta "navigation range start exceeds u32")
  let start ← plain (readU32 (previousStart previous + delta) "navigation range start overflows")
  let (length, bytes) ← readVarintChecked bytes
  let length ← plain (readU32 length "navigation range length exceeds u32")
  let stop ← plain (readU32 (start + length) "navigation range end overflows")
  let (startLine, bytes) ← readVarintChecked bytes
  let startLine ← plain (readU32 startLine "navigation start line exceeds u32")
  let (startCharacter, bytes) ← readZigzagChecked bytes
  let startCharacter ← plain (readU32 startCharacter "navigation start character exceeds u32")
  let (lineDelta, bytes) ← readVarintChecked bytes
  let lineDelta ← plain (readU32 lineDelta "navigation end line delta exceeds u32")
  let endLine ← plain (readU32 (startLine + lineDelta) "navigation end line overflows")
  let (characterDelta, bytes) ← readZigzagChecked bytes
  -- the one sum that is not a `checked_add`
  let endCharacter ← checkI64 (startCharacter + characterDelta)
  let endCharacter ← plain (readU32 endCharacter "navigation end character exceeds u32")
  match TextRange.new start stop with
  | none => plain (.error (.invalidData "invalid navigation range".toList))
  | some range =>
    if regresses previous range then
      plain (.error (.invalidData "navigation positions are not strictly ordered".toList))
    else pure ((range, ⟨⟨startLine, startCharacter⟩, ⟨endLine, endCharacter⟩⟩), bytes)

def decodeEntriesChecked : Nat → Option TextRange → List UInt8 →
    Checked (List (TextRange × PositionRange) × List UInt8)
  | 0, _, bytes => pure ([], bytes)
  | count + 1, previous, bytes => do
    let (entry, bytes) ← decodeEntryChecked previous bytes
    let (entries, bytes) ← decodeEntriesChecked count (some entry.1) bytes
    pure (entry :: entries, bytes)

def decodeChecked (payload : List UInt8) : Checked (List (TextRange × PositionRange)) :=
  match payload with
  | [] => plain (.error (.invalidData "empty navigation position payload".toList))
  | version :: bytes =>
    if version ≠ 1 then
      plain (.error (.invalidData ("unsupported navigation position codec version ".toList ++
        Nat.toDigits 10 version.toNat)))
    else do
      let (count, bytes) ← readVarintChecked bytes
      if Cache.maxCacheSymbols < count then
        plain (.error (.limitExceeded "navigation position" Cache.maxCacheSymbols))
      else
        let (entries, bytes) ← decodeEntriesChecked count none bytes
        if bytes = [] then pure entries
        else plain (.error (.invalidData "navigation position payload has trailing bytes".toList))

/-! ## Numbers stay in their types -/

theorem plain_ok_bind {α β : Type} (a : α) (f : α → Checked β) : (plain (.ok a) >>= f) = f a := rfl

/-- A first part moves out of a plain computation. -/
theorem plain_bind_of {α β γ : Type} {x : Except IndexCacheError α} {first : α → Checked γ}
    {f : α → Except IndexCacheError β} {rest : β → Checked γ}
    (h : ∀ a, first a = (plain (f a) >>= rest)) :
    (plain x >>= first) = (plain (x >>= f) >>= rest) := by
  cases x with
  | error e => rfl
  | ok a => exact h a

/-- The seven bits of a byte lie above the bits that were read. -/
theorem readVarintFromChecked_eq : ∀ (count shift value : Nat) (bytes : List UInt8),
    7 * count = shift → count ≤ 10 →
    value < 2 ^ shift →
    readVarintFromChecked value ((List.range' count (10 - count)).map (7 * ·)) bytes =
      plain (readVarintFrom value ((List.range' count (10 - count)).map (7 * ·)) bytes) := by
  intro count
  induction hleft : 10 - count generalizing count with
  | zero =>
    intro shift value bytes _ _ _
    cases bytes <;> rfl
  | succ left ih =>
    intro shift value bytes hshift hcount hvalue
    rw [List.range'_succ, List.map_cons, hshift]
    cases bytes with
    | nil => rfl
    | cons byte bytes =>
      unfold readVarintFromChecked readVarintFrom
      by_cases hlast : 64 - 7 ≤ shift ∧ 1 < byte.toNat
      · rw [if_pos hlast, if_pos hlast]
      have hbits : byte.toNat % 128 * 2 ^ shift < 2 ^ 64 := by
        by_cases h63 : 57 ≤ shift
        · obtain rfl : shift = 63 := by omega
          have hsmall : byte.toNat % 128 ≤ 1 := by omega
          calc byte.toNat % 128 * 2 ^ 63 ≤ 1 * 2 ^ 63 := Nat.mul_le_mul_right _ hsmall
            _ < 2 ^ 64 := by decide
        · calc byte.toNat % 128 * 2 ^ shift < 2 ^ 7 * 2 ^ shift :=
                Nat.mul_lt_mul_of_pos_right (Nat.mod_lt _ (by decide)) (Nat.two_pow_pos _)
            _ = 2 ^ (7 + shift) := (Nat.pow_add 2 7 shift).symm
            _ ≤ 2 ^ 64 := Nat.pow_le_pow_right (by decide) (by omega)
      have hor : value ||| byte.toNat % 128 * 2 ^ shift = value + byte.toNat % 128 * 2 ^ shift := by
        rw [Nat.or_comm, Nat.mul_comm, ← Nat.two_pow_add_eq_or_of_lt hvalue, Nat.add_comm]
      have hnext : value + byte.toNat % 128 * 2 ^ shift < 2 ^ (shift + 7) := by
        have hle : byte.toNat % 128 * 2 ^ shift ≤ 127 * 2 ^ shift :=
          Nat.mul_le_mul_right _ (by omega)
        rw [Nat.pow_add]
        omega
      rw [if_neg hlast, if_neg hlast, shlU64, if_pos ⟨by omega, hbits⟩]
      show (if byte.toNat < 128 then _ else _) = _
      rw [hor]
      dsimp only
      split_ifs
      · rfl
      · exact ih (count + 1) (by omega) (shift + 7) _ bytes (by omega) (by omega) hnext

theorem readVarintChecked_eq (bytes : List UInt8) : readVarintChecked bytes =
    plain (readVarint bytes) :=
  readVarintFromChecked_eq 0 0 0 bytes rfl (by decide) (by decide)

/-! ## What a number is read from -/

/-- Bytes of seven bits each, the low ones first; all but the last have the high bit. -/
inductive Leb128 : List UInt8 → Nat → Prop
  | last (byte : UInt8) : byte.toNat < 128 → Leb128 [byte] byte.toNat
  | more (byte : UInt8) {bytes : List UInt8} {n : Nat} : 128 ≤ byte.toNat → Leb128 bytes n →
      Leb128 (byte :: bytes) (byte.toNat % 128 + 128 * n)

/-- The spellings of a number of 64 bits: up to ten bytes, not only the shortest. -/
structure Spells (bytes : List UInt8) (n : Nat) : Prop where
  leb128 : Leb128 bytes n
  length : bytes.length ≤ 10
  fits : n < 2 ^ 64

variable {bytes : List UInt8}

theorem Leb128.length_pos {n : Nat} (h : Leb128 bytes n) : 0 < bytes.length := by
  cases h <;> exact Nat.succ_pos _

variable {rest : List UInt8}

/-- The reader stops behind a spelling of what it returns. -/
theorem readVarintFrom_eq_ok_iff {n : Nat} : ∀ {count shift value : Nat} {bytes : List UInt8},
    7 * count = shift → count ≤ 10 →
    (readVarintFrom value ((List.range' count (10 - count)).map (7 * ·)) bytes = .ok (n, rest) ↔
      ∃ spelled m, bytes = spelled ++ rest ∧ Leb128 spelled m ∧ spelled.length ≤ 10 - count ∧
        m * 2 ^ shift < 2 ^ 64 ∧ n = value + m * 2 ^ shift) := by
  intro count
  induction hleft : 10 - count generalizing count with
  | zero =>
    intro shift value bytes _ _
    refine iff_of_false (fun h => by cases bytes <;> cases h) ?_
    rintro ⟨spelled, m, -, hleb, hlength, -⟩
    exact absurd hleb.length_pos (by omega)
  | succ left ih =>
    intro shift value bytes hshift hcount
    rw [List.range'_succ, List.map_cons, hshift]
    have hpow : 0 < 2 ^ shift := Nat.two_pow_pos shift
    cases bytes with
    | nil =>
      refine iff_of_false (fun h => by cases h) ?_
      rintro ⟨spelled, m, hbytes, hleb, -⟩
      obtain ⟨rfl, -⟩ := List.append_eq_nil_iff.mp hbytes.symm
      exact absurd hleb.length_pos (Nat.lt_irrefl 0)
    | cons byte bytes =>
      unfold readVarintFrom
      by_cases hlast : 64 - 7 ≤ shift ∧ 1 < byte.toNat
      · -- the tenth byte has more than one bit
        obtain rfl : shift = 63 := by omega
        rw [if_pos hlast]
        refine iff_of_false (fun h => by cases h) ?_
        rintro ⟨spelled, m, hbytes, hleb, hlength, hfits, -⟩
        cases hleb with
        | last b hb =>
          obtain ⟨rfl, -⟩ := List.cons.inj hbytes
          omega
        | more b hb hleb =>
          have := hleb.length_pos
          rw [List.length_cons] at hlength
          omega
      rw [if_neg hlast]
      dsimp only
      split_ifs with hsmall
      · have hmod : byte.toNat % 128 = byte.toNat := Nat.mod_eq_of_lt hsmall
        rw [hmod]
        constructor
        · intro h
          obtain ⟨rfl, rfl⟩ := Prod.mk.inj (Except.ok.inj h)
          refine ⟨[byte], byte.toNat, rfl, Leb128.last byte hsmall, by simp, ?_, rfl⟩
          by_cases h63 : 57 ≤ shift
          · obtain rfl : shift = 63 := by omega
            omega
          · calc byte.toNat * 2 ^ shift < 2 ^ 7 * 2 ^ shift :=
              Nat.mul_lt_mul_of_pos_right hsmall hpow
              _ = 2 ^ (7 + shift) := (Nat.pow_add 2 7 shift).symm
              _ ≤ 2 ^ 64 := Nat.pow_le_pow_right (by decide) (by omega)
        · rintro ⟨spelled, m, hbytes, hleb, -, -, rfl⟩
          cases hleb with
          | last b hb =>
            obtain ⟨rfl, rfl⟩ := List.cons.inj hbytes
            rfl
          | more b hb hleb =>
            obtain ⟨rfl, -⟩ := List.cons.inj hbytes
            omega
      · rw [ih (by omega : 10 - (count + 1) = left) (by omega : 7 * (count + 1) = shift + 7)
          (by omega)]
        have hscale : ∀ m, (byte.toNat % 128 + 128 * m) * 2 ^ shift =
            byte.toNat % 128 * 2 ^ shift + m * 2 ^ (shift + 7) := fun m => by ring
        constructor
        · rintro ⟨spelled, m, rfl, hleb, hlength, hfits, rfl⟩
          refine ⟨byte :: spelled, _, rfl, Leb128.more byte (by omega) hleb, ?_, ?_, ?_⟩
          · rw [List.length_cons]
            omega
          · -- the bits of the byte are below a multiple of `2 ^ (shift + 7)` that is below `2 ^ 64`
            have hpos := hleb.length_pos
            have hsum : shift + 7 ≤ 63 := by omega
            obtain ⟨gap, hgap⟩ := Nat.exists_eq_add_of_le (show shift + 7 ≤ 64 by omega)
            have hm : m < 2 ^ gap := by
              have h64 : m * 2 ^ (shift + 7) < 2 ^ gap * 2 ^ (shift + 7) := by
                rw [← Nat.pow_add, Nat.add_comm gap, ← hgap]
                exact hfits
              exact Nat.lt_of_mul_lt_mul_right h64
            have hbyte : byte.toNat % 128 < 128 := Nat.mod_lt _ (by decide)
            calc (byte.toNat % 128 + 128 * m) * 2 ^ shift < 128 * (m + 1) * 2 ^ shift :=
                  Nat.mul_lt_mul_of_pos_right (by omega) hpow
              _ ≤ 128 * 2 ^ gap * 2 ^ shift := Nat.mul_le_mul_right _ (Nat.mul_le_mul_left _ hm)
              _ = 2 ^ (shift + 7 + gap) := by ring
              _ = 2 ^ 64 := by rw [← hgap]
          · rw [hscale]
            omega
        · rintro ⟨spelled, m, hbytes, hleb, hlength, hfits, rfl⟩
          cases hleb with
          | last b hb =>
            obtain ⟨rfl, -⟩ := List.cons.inj hbytes
            omega
          | more b hb hleb =>
            obtain ⟨rfl, rfl⟩ := List.cons.inj hbytes
            rw [hscale] at hfits ⊢
            rw [List.length_cons] at hlength
            exact ⟨_, _, rfl, hleb, by omega, by omega, by omega⟩

theorem readVarint_eq_ok_iff {n : Nat} :
    readVarint bytes = .ok (n, rest) ↔ ∃ spelled, bytes = spelled ++ rest ∧ Spells spelled n := by
  have hstart : 7 * 0 = 0 := rfl
  refine (readVarintFrom_eq_ok_iff hstart (by decide)).trans ?_
  simp only [Nat.pow_zero, Nat.mul_one, Nat.zero_add]
  constructor
  · rintro ⟨spelled, m, hbytes, hleb, hlength, hfits, rfl⟩
    exact ⟨spelled, hbytes, hleb, hlength, hfits⟩
  · rintro ⟨spelled, hbytes, hleb, hlength, hfits⟩
    exact ⟨spelled, n, hbytes, hleb, hlength, hfits, rfl⟩

/-- The number that is written for a signed one. -/
def zigzag (value : Int) : Nat := (if value < 0 then -(2 * value) - 1 else 2 * value).toNat

theorem readZigzag_eq_ok_iff {value : Int} :
    readZigzag bytes = .ok (value, rest) ↔ ∃ spelled, bytes = spelled ++ rest ∧
    Spells spelled (zigzag value) := by
  rw [← readVarint_eq_ok_iff]
  unfold readZigzag zigzag
  rcases readVarint bytes with e | ⟨n, read⟩
  · exact iff_of_false (fun h => by cases h) (fun h => by cases h)
  simp only [Except.map, Except.ok.injEq, Prod.mk.injEq, complement_eq]
  refine and_congr_left fun _ => ?_
  split_ifs <;> omega

/-- The half of a number and its last bit fit `i64`. -/
theorem readZigzagChecked_eq : readZigzagChecked bytes = plain (readZigzag bytes) := by
  unfold readZigzagChecked readZigzag
  rw [readVarintChecked_eq]
  rcases hread : readVarint bytes with e | ⟨value, rest⟩
  · rfl
  have hvalue := (readVarint_eq_ok_iff.mp hread).choose_spec.2.fits
  rw [plain_ok_bind]
  dsimp only
  rw [checkI64, if_pos (by omega), pure_bind, checkI64, if_pos (by omega), pure_bind]
  unfold xorSign
  have hsign : -((value % 2 : Nat) : Int) = -1 ↔ value % 2 = 1 := by omega
  by_cases hodd : value % 2 = 1
  · rw [if_pos (hsign.mpr hodd)]
    show plain _ = plain _
    simp only [Except.map, if_pos hodd]
  · rw [if_neg (fun h => hodd (hsign.mp h))]
    show plain _ = plain _
    simp only [Except.map, if_neg hodd]

/-! ## What an entry is read from -/

/-- The five numbers of an entry in front of the delta of its end character. -/
def HeadSpelled (previous : Option TextRange) (range : TextRange) (start : Position) (endLine : Nat)
    (bytes : List UInt8) : Prop :=
  previousStart previous ≤ range.start ∧ range.stop ≤ u32Max ∧ start.character ≤ u32Max ∧
    start.line ≤ endLine ∧ endLine ≤ u32Max ∧ ∃ a b c d e, bytes = a ++ (b ++ (c ++ (d ++ e))) ∧
      Spells a (range.start - previousStart previous) ∧ Spells b (range.stop - range.start) ∧
      Spells c start.line ∧ Spells d (zigzag start.character) ∧ Spells e (endLine - start.line)

def EntrySpelled (previous : Option TextRange) (entry : TextRange × PositionRange)
    (bytes : List UInt8) : Prop :=
  Follows previous entry.1 ∧ entry.2.stop.character ≤ u32Max ∧ ∃ head tail, bytes = head ++ tail ∧
    HeadSpelled previous entry.1 entry.2.start entry.2.stop.line head ∧
    Spells tail (zigzag ((entry.2.stop.character : Int) - entry.2.start.character))

/-- The part of `decodeEntry` in front of the last number. -/
def decodeHead (previous : Option TextRange) (bytes : List UInt8) :
    Except IndexCacheError ((Nat × Nat × Position × Nat) × List UInt8) := do
  let (delta, bytes) ← readVarint bytes
  let delta ← readU32 delta "navigation range start exceeds u32"
  let start ← readU32 (previousStart previous + delta) "navigation range start overflows"
  let (length, bytes) ← readVarint bytes
  let length ← readU32 length "navigation range length exceeds u32"
  let stop ← readU32 (start + length) "navigation range end overflows"
  let (startLine, bytes) ← readVarint bytes
  let startLine ← readU32 startLine "navigation start line exceeds u32"
  let (startCharacter, bytes) ← readZigzag bytes
  let startCharacter ← readU32 startCharacter "navigation start character exceeds u32"
  let (lineDelta, bytes) ← readVarint bytes
  let lineDelta ← readU32 lineDelta "navigation end line delta exceeds u32"
  let endLine ← readU32 (startLine + lineDelta) "navigation end line overflows"
  .ok ((start, stop, ⟨startLine, startCharacter⟩, endLine), bytes)

/-- The part of `decodeEntry` behind the sum. -/
def decodeTail (previous : Option TextRange) (head : Nat × Nat × Position × Nat)
    (endCharacter : Int)
    (bytes : List UInt8) : Except IndexCacheError ((TextRange × PositionRange) × List UInt8) := do
  let endCharacter ← readU32 endCharacter "navigation end character exceeds u32"
  match TextRange.new head.1 head.2.1 with
  | none => .error (.invalidData "invalid navigation range".toList)
  | some range =>
    if regresses previous range then
      .error (.invalidData "navigation positions are not strictly ordered".toList)
    else .ok ((range, ⟨head.2.2.1, ⟨head.2.2.2, endCharacter⟩⟩), bytes)

theorem decodeEntry_eq (previous : Option TextRange) (bytes : List UInt8) :
    decodeEntry previous bytes = (do
      let (head, bytes) ← decodeHead previous bytes
      let (delta, bytes) ← readZigzag bytes
      decodeTail previous head (head.2.2.1.character + delta) bytes) := by
  simp only [decodeEntry, decodeHead, decodeTail, bind_assoc]
  rfl

theorem decodeEntryChecked_eq (previous : Option TextRange) (bytes : List UInt8) :
    decodeEntryChecked previous bytes = (do
      let (head, bytes) ← plain (decodeHead previous bytes)
      let (delta, bytes) ← plain (readZigzag bytes)
      let endCharacter ← checkI64 (head.2.2.1.character + delta)
      plain (decodeTail previous head endCharacter bytes)) := by
  unfold decodeEntryChecked decodeHead
  simp only [readVarintChecked_eq, readZigzagChecked_eq]
  refine plain_bind_of fun delta => ?_
  refine plain_bind_of fun start => ?_
  refine plain_bind_of fun start => ?_
  refine plain_bind_of fun length => ?_
  refine plain_bind_of fun stop => ?_
  refine plain_bind_of fun stop => ?_
  refine plain_bind_of fun startLine => ?_
  refine plain_bind_of fun startLine => ?_
  refine plain_bind_of fun startCharacter => ?_
  refine plain_bind_of fun startCharacter => ?_
  refine plain_bind_of fun lineDelta => ?_
  refine plain_bind_of fun lineDelta => ?_
  refine plain_bind_of fun endLine => ?_
  rw [plain_ok_bind]
  refine congrArg _ (funext fun delta => congrArg _ (funext fun endCharacter => ?_))
  unfold decodeTail
  dsimp only
  rcases readU32 endCharacter "navigation end character exceeds u32" with e | endCharacter
  · rfl
  rw [plain_ok_bind, Except.ok_bind]
  rcases TextRange.new start stop with _ | range
  · rfl
  dsimp only
  split_ifs <;> rfl

theorem readU32_eq_ok_iff {value : Int} {error : String} {n : Nat} :
    readU32 value error = .ok n ↔ (n : Int) = value ∧ n ≤ u32Max := by
  refine ⟨readU32_eq_ok, ?_⟩
  rintro ⟨rfl, h⟩
  exact readU32_ok h error

variable {previous : Option TextRange}

/-- The head of an entry is what its five numbers spell. -/
theorem decodeHead_eq_ok_iff {start stop endLine : Nat} {position : Position} :
    decodeHead previous bytes = .ok ((start, stop, position, endLine), rest) ↔
      ∃ h : start ≤ stop, ∃ head, bytes = head ++ rest ∧
        HeadSpelled previous ⟨start, stop, h⟩ position endLine head := by
  unfold decodeHead
  constructor
  · intro h
    obtain ⟨⟨delta, bytes1⟩, hdelta, h⟩ := Except.bind_eq_ok_iff.mp h
    obtain ⟨delta', hdelta', h⟩ := Except.bind_eq_ok_iff.mp h
    obtain ⟨start', hstart, h⟩ := Except.bind_eq_ok_iff.mp h
    obtain ⟨⟨length, bytes2⟩, hlength, h⟩ := Except.bind_eq_ok_iff.mp h
    obtain ⟨length', hlength', h⟩ := Except.bind_eq_ok_iff.mp h
    obtain ⟨stop', hstop, h⟩ := Except.bind_eq_ok_iff.mp h
    obtain ⟨⟨line, bytes3⟩, hline, h⟩ := Except.bind_eq_ok_iff.mp h
    obtain ⟨line', hline', h⟩ := Except.bind_eq_ok_iff.mp h
    obtain ⟨⟨character, bytes4⟩, hcharacter, h⟩ := Except.bind_eq_ok_iff.mp h
    obtain ⟨character', hcharacter', h⟩ := Except.bind_eq_ok_iff.mp h
    obtain ⟨⟨lines, bytes5⟩, hlines, h⟩ := Except.bind_eq_ok_iff.mp h
    obtain ⟨lines', hlines', h⟩ := Except.bind_eq_ok_iff.mp h
    obtain ⟨endLine', hendLine, h⟩ := Except.bind_eq_ok_iff.mp h
    cases h
    obtain ⟨a, rfl, ha⟩ := readVarint_eq_ok_iff.mp hdelta
    obtain ⟨b, rfl, hb⟩ := readVarint_eq_ok_iff.mp hlength
    obtain ⟨c, rfl, hc⟩ := readVarint_eq_ok_iff.mp hline
    obtain ⟨d, rfl, hd⟩ := readZigzag_eq_ok_iff.mp hcharacter
    obtain ⟨e, rfl, he⟩ := readVarint_eq_ok_iff.mp hlines
    have h1 := readU32_eq_ok_iff.mp hdelta'
    have h2 := readU32_eq_ok_iff.mp hstart
    have h3 := readU32_eq_ok_iff.mp hlength'
    have h4 := readU32_eq_ok_iff.mp hstop
    have h5 := readU32_eq_ok_iff.mp hline'
    have h6 := readU32_eq_ok_iff.mp hcharacter'
    have h7 := readU32_eq_ok_iff.mp hlines'
    have h8 := readU32_eq_ok_iff.mp hendLine
    refine ⟨by omega, a ++ (b ++ (c ++ (d ++ e))), by simp only [List.append_assoc], ?_⟩
    refine ⟨by dsimp only; omega, h4.2, h6.2, by dsimp only; omega, h8.2, a, b, c, d, e, rfl, ?_,
      ?_, ?_, ?_, ?_⟩
    · rwa [show start - previousStart previous = delta by omega]
    · rwa [show stop - start = length by omega]
    · rwa [show line' = line by omega]
    · rwa [h6.1]
    · rwa [show endLine - line' = lines by omega]
  · rintro ⟨h, head, rfl, hprevious, hstop, hcharacter, hline, hendLine, a, b, c, d, e, rfl, ha,
      hb, hc, hd, he⟩
    obtain ⟨line, character⟩ := position
    dsimp only at hprevious hstop hcharacter hline ha hb hc hd he
    simp only [List.append_assoc, readVarint_eq_ok_iff.mpr ⟨a, rfl, ha⟩,
      readVarint_eq_ok_iff.mpr ⟨b, rfl, hb⟩, readVarint_eq_ok_iff.mpr ⟨c, rfl, hc⟩,
      readZigzag_eq_ok_iff.mpr ⟨d, rfl, hd⟩, readVarint_eq_ok_iff.mpr ⟨e, rfl, he⟩, Except.ok_bind]
    have h1 : (previousStart previous : Int) + ((start - previousStart previous : Nat) : Int) =
      (start : Int) := by
      omega
    have h2 : (start : Int) + ((stop - start : Nat) : Int) = (stop : Int) := by omega
    have h3 : (line : Int) + ((endLine - line : Nat) : Int) = (endLine : Int) := by omega
    simp only [readU32_ok (show start - previousStart previous ≤ u32Max by omega),
      Except.ok_bind, h1, readU32_ok (show start ≤ u32Max by omega),
      readU32_ok (show stop - start ≤ u32Max by omega), h2,
      readU32_ok hstop, readU32_ok (show line ≤ u32Max by omega), readU32_ok hcharacter,
      readU32_ok (show endLine - line ≤ u32Max by omega), h3, readU32_ok hendLine]

theorem decodeTail_eq_ok_iff {start stop endLine : Nat} (h : start ≤ stop)
    {position : Position} {endCharacter : Int} {entry : TextRange × PositionRange} :
    decodeTail previous (start, stop, position, endLine) endCharacter bytes = .ok (entry, rest) ↔
      Follows previous ⟨start, stop, h⟩ ∧ (∃ n : Nat, (n : Int) = endCharacter ∧ n ≤ u32Max ∧
        entry = (⟨start, stop, h⟩, ⟨position, ⟨endLine, n⟩⟩)) ∧ rest = bytes := by
  unfold decodeTail
  rw [Except.bind_eq_ok_iff, ← regresses_eq_false_iff, TextRange.new]
  dsimp only
  simp only [dif_pos h, readU32_eq_ok_iff]
  rcases regresses previous ⟨start, stop, h⟩ with _ | _
  · simp only [Bool.false_eq_true, if_false, Except.ok.injEq, Prod.mk.injEq, true_and]
    constructor
    · rintro ⟨n, ⟨hn, hmax⟩, rfl, rfl⟩
      exact ⟨⟨n, hn, hmax, rfl⟩, rfl⟩
    · rintro ⟨⟨n, hn, hmax, rfl⟩, rfl⟩
      exact ⟨n, ⟨hn, hmax⟩, rfl, rfl⟩
  · simp

/-- An entry is what its six numbers spell. -/
theorem decodeEntry_eq_ok_iff {entry : TextRange × PositionRange} :
    decodeEntry previous bytes = .ok (entry, rest) ↔
      ∃ spelled, bytes = spelled ++ rest ∧ EntrySpelled previous entry spelled := by
  rw [decodeEntry_eq, Except.bind_eq_ok_iff]
  constructor
  · rintro ⟨⟨⟨start, stop, position, endLine⟩, bytes1⟩, hhead, h⟩
    obtain ⟨⟨delta, bytes2⟩, hdelta, hentry⟩ := Except.bind_eq_ok_iff.mp h
    obtain ⟨hle, head, rfl, hspelled⟩ := decodeHead_eq_ok_iff.mp hhead
    obtain ⟨tail, rfl, htail⟩ := readZigzag_eq_ok_iff.mp hdelta
    obtain ⟨hfollows, ⟨n, hn, hmax, rfl⟩, rfl⟩ := (decodeTail_eq_ok_iff hle).mp hentry
    refine ⟨head ++ tail, (List.append_assoc _ _ _).symm, hfollows, hmax, head, tail,
      rfl, hspelled, ?_⟩
    have hsub : (n : Int) - position.character = delta := by
      dsimp only at hn
      omega
    rwa [hsub]
  · rintro ⟨spelled, rfl, hfollows, hmax, head, tail, rfl, hspelled, htail⟩
    obtain ⟨range, position, endLine, endCharacter⟩ := entry
    refine ⟨((range.start, range.stop, position, endLine), tail ++ rest),
      decodeHead_eq_ok_iff.mpr ⟨range.le, head, List.append_assoc _ _ _, hspelled⟩, ?_⟩
    refine Except.bind_eq_ok_iff.mpr ⟨(_, rest), readZigzag_eq_ok_iff.mpr ⟨tail, rfl, htail⟩, ?_⟩
    refine (decodeTail_eq_ok_iff range.le).mpr ⟨hfollows, ⟨endCharacter, ?_, hmax, rfl⟩, rfl⟩
    dsimp only
    omega

/-! ## Where the sum overflows -/

/-- One of the next `count` entries is reached and starts with a character whose sum with the delta
that follows is no `i64`. -/
inductive OverflowsIn : Nat → Option TextRange → List UInt8 → Prop
  | here {count : Nat} {previous : Option TextRange} {range : TextRange} {start : Position}
      {endLine : Nat} {delta : Int} {head tail : List UInt8} (rest : List UInt8) :
      HeadSpelled previous range start endLine head → Spells tail (zigzag delta) →
      2 ^ 63 ≤ (start.character : Int) + delta → OverflowsIn (count + 1) previous
      (head ++ (tail ++ rest))
  | later {count : Nat} {previous : Option TextRange} {entry : TextRange × PositionRange}
      {first bytes : List UInt8} : EntrySpelled previous entry first →
      OverflowsIn count (some entry.1) bytes → OverflowsIn (count + 1) previous (first ++ bytes)

/-- Such an entry is among those that the count of a payload announces. -/
def Overflows (payload : List UInt8) : Prop :=
  ∃ count spelled bytes, payload = 1 :: (spelled ++ bytes) ∧ Spells spelled count ∧
    count ≤ Cache.maxCacheSymbols ∧ OverflowsIn count none bytes

/-- The sum of this entry. -/
def OverflowsHere (previous : Option TextRange) (bytes : List UInt8) : Prop :=
  ∃ head rest delta rest', decodeHead previous bytes = .ok (head, rest) ∧
    readZigzag rest = .ok (delta, rest') ∧ 2 ^ 63 ≤ (head.2.2.1.character : Int) + delta

theorem overflowsHere_iff :
    OverflowsHere previous bytes ↔ ∃ range start endLine delta head tail rest,
      bytes = head ++ (tail ++ rest) ∧
      HeadSpelled previous range start endLine head ∧ Spells tail (zigzag delta) ∧
      2 ^ 63 ≤ (start.character : Int) + delta := by
  constructor
  · rintro ⟨⟨start, stop, position, endLine⟩, bytes1, delta, bytes2, hhead, hdelta, hsum⟩
    obtain ⟨hle, head, rfl, hspelled⟩ := decodeHead_eq_ok_iff.mp hhead
    obtain ⟨tail, rfl, htail⟩ := readZigzag_eq_ok_iff.mp hdelta
    exact ⟨_, _, _, _, _, _, _, rfl, hspelled, htail, hsum⟩
  · rintro ⟨range, start, endLine, delta, head, tail, rest, rfl, hspelled, htail, hsum⟩
    exact ⟨(range.start, range.stop, start, endLine), tail ++ rest, delta, rest,
      decodeHead_eq_ok_iff.mpr ⟨range.le, head, rfl, hspelled⟩,
        readZigzag_eq_ok_iff.mpr ⟨tail, rfl, htail⟩, hsum⟩

theorem decodeEntryChecked_of_overflowsHere
    (h : OverflowsHere previous bytes) : decodeEntryChecked previous bytes = overflowed := by
  obtain ⟨head, rest, delta, rest', hhead, hdelta, hsum⟩ := h
  rw [decodeEntryChecked_eq, hhead, plain_ok_bind]
  dsimp only
  rw [hdelta, plain_ok_bind]
  dsimp only
  rw [checkI64, if_neg (by omega)]
  rfl

theorem decodeEntryChecked_of_not (h : ¬ OverflowsHere previous bytes) :
    decodeEntryChecked previous bytes = plain (decodeEntry previous bytes) := by
  rw [decodeEntryChecked_eq, decodeEntry_eq]
  rcases hhead : decodeHead previous bytes with e | ⟨head, rest⟩
  · rfl
  rw [plain_ok_bind, Except.ok_bind]
  dsimp only
  rcases hdelta : readZigzag rest with e | ⟨delta, rest'⟩
  · rfl
  rw [plain_ok_bind, Except.ok_bind]
  dsimp only
  have hlow : -(2 ^ 63) ≤ delta := by
    obtain ⟨tail, -, htail⟩ := readZigzag_eq_ok_iff.mp hdelta
    have hfits := htail.fits
    unfold zigzag at hfits
    split_ifs at hfits <;> omega
  have hsum : ¬ 2 ^ 63 ≤ (head.2.2.1.character : Int) + delta := fun hsum =>
    h ⟨head, rest, delta, rest', hhead, hdelta, hsum⟩
  rw [checkI64, if_pos (by omega), pure_bind]

theorem overflowsIn_succ_iff {count : Nat} :
    OverflowsIn (count + 1) previous bytes ↔ OverflowsHere previous bytes ∨
      ∃ entry rest, decodeEntry previous bytes = .ok (entry, rest) ∧
      OverflowsIn count (some entry.1) rest := by
  rw [overflowsHere_iff]
  constructor
  · intro h
    cases h with
    | here rest hspelled htail hsum => exact .inl ⟨_, _, _, _, _, _, rest, rfl,
        hspelled, htail, hsum⟩
    | later hspelled hlater => exact .inr ⟨_, _, decodeEntry_eq_ok_iff.mpr ⟨_, rfl, hspelled⟩,
        hlater⟩
  · rintro (⟨range, start, endLine, delta, head, tail, rest, rfl, hspelled, htail, hsum⟩ | ⟨entry,
      rest, hentry, hlater⟩)
    · exact .here rest hspelled htail hsum
    · obtain ⟨spelled, rfl, hspelled⟩ := decodeEntry_eq_ok_iff.mp hentry
      exact .later hspelled hlater

theorem overflowed_ne_plain {α : Type} (result : Except IndexCacheError α) :
    overflowed ≠ plain result :=
  fun h => (nomatch h)

/-- The loop reads what the plain loop reads, or a sum overflows. -/
theorem decodeEntriesChecked_cases : ∀ (count : Nat) (previous : Option TextRange)
    (bytes : List UInt8),
    (OverflowsIn count previous bytes ∧ decodeEntriesChecked count previous bytes = overflowed) ∨
      (¬ OverflowsIn count previous bytes ∧
        decodeEntriesChecked count previous bytes =
          plain (decodeEntries count previous bytes)) := by
  intro count
  induction count with
  | zero => exact fun previous bytes => .inr ⟨fun h => (nomatch h), rfl⟩
  | succ count ih =>
    intro previous bytes
    rw [overflowsIn_succ_iff]
    unfold decodeEntriesChecked decodeEntries
    by_cases hhere : OverflowsHere previous bytes
    · refine .inl ⟨.inl hhere, ?_⟩
      rw [decodeEntryChecked_of_overflowsHere hhere]
      rfl
    rw [decodeEntryChecked_of_not hhere]
    rcases hentry : decodeEntry previous bytes with e | ⟨entry, rest⟩
    · refine .inr ⟨?_, rfl⟩
      rintro (h | ⟨entry, rest, h, -⟩)
      · exact hhere h
      · cases h
    rw [plain_ok_bind, Except.ok_bind]
    dsimp only
    rcases ih (some entry.1) rest with ⟨hlater, hread⟩ | ⟨hlater, hread⟩
    · refine .inl ⟨.inr ⟨entry, rest, rfl, hlater⟩, ?_⟩
      rw [hread]
      rfl
    · refine .inr ⟨?_, ?_⟩
      · rintro (h | ⟨entry', rest', h, hlater'⟩)
        · exact hhere h
        · obtain ⟨rfl, rfl⟩ := Prod.mk.inj (Except.ok.inj h)
          exact hlater hlater'
      · rw [hread]
        rcases decodeEntries count (some entry.1) rest with e | ⟨entries, rest⟩ <;> rfl

/-- The checked reader returns what the plain one returns, or a sum overflows. -/
theorem decodeChecked_cases (payload : List UInt8) :
    (Overflows payload ∧ decodeChecked payload = overflowed) ∨
      (¬ Overflows payload ∧ decodeChecked payload = plain (decode payload)) := by
  unfold decodeChecked decode
  cases payload with
  | nil =>
    refine .inr ⟨?_, rfl⟩
    rintro ⟨count, spelled, bytes, h, -⟩
    cases h
  | cons version bytes =>
    dsimp only
    split_ifs with hversion
    · refine .inr ⟨?_, rfl⟩
      rintro ⟨count, spelled, rest, h, -⟩
      exact hversion (List.cons.inj h).1
    obtain rfl := not_not.mp hversion
    rw [readVarintChecked_eq]
    have hoverflows : ∀ count rest, readVarint bytes = .ok (count, rest) →
        (Overflows (1 :: bytes) ↔ count ≤ Cache.maxCacheSymbols ∧ OverflowsIn count none rest) := by
      intro count rest hread
      obtain ⟨spelled, hbytes, hspells⟩ := readVarint_eq_ok_iff.mp hread
      constructor
      · rintro ⟨count', spelled', rest', h, hspells', hlimit, hin⟩
        obtain ⟨-, rfl⟩ := List.cons.inj h
        obtain ⟨rfl, rfl⟩ := Prod.mk.inj (Except.ok.inj (hread.symm.trans
          (readVarint_eq_ok_iff.mpr ⟨spelled', rfl, hspells'⟩)))
        exact ⟨hlimit, hin⟩
      · rintro ⟨hlimit, hin⟩
        exact ⟨count, spelled, rest, by rw [hbytes], hspells, hlimit, hin⟩
    rcases hread : readVarint bytes with e | ⟨count, rest⟩
    · refine .inr ⟨?_, rfl⟩
      rintro ⟨count, spelled, rest, h, hspells, -⟩
      obtain ⟨-, rfl⟩ := List.cons.inj h
      rw [readVarint_eq_ok_iff.mpr ⟨spelled, rfl, hspells⟩] at hread
      cases hread
    rw [plain_ok_bind, Except.ok_bind, hoverflows count rest hread]
    dsimp only
    split_ifs with hlimit
    · exact .inr ⟨fun h => hlimit.not_ge h.1, rfl⟩
    rcases decodeEntriesChecked_cases count none rest with ⟨hin, hentries⟩ | ⟨hin, hentries⟩
    · refine .inl ⟨⟨Nat.le_of_not_lt hlimit, hin⟩, ?_⟩
      rw [hentries]
      rfl
    · refine .inr ⟨fun h => hin h.2, ?_⟩
      rw [hentries]
      rcases decodeEntries count none rest with e | ⟨entries, rest⟩
      · rfl
      rw [plain_ok_bind, Except.ok_bind]
      dsimp only
      split_ifs <;> rfl

/-- Every operation on the way of `decode` stays in its type, and it returns, exactly where no sum
of a start character and a delta overflows. -/
theorem decodeChecked_iff (payload : List UInt8) :
    (∃ result, decodeChecked payload = plain result) ↔ ¬ Overflows payload := by
  rcases decodeChecked_cases payload with ⟨h, heq⟩ | ⟨h, heq⟩
  · refine iff_of_false ?_ (not_not.mpr h)
    rintro ⟨result, hresult⟩
    exact overflowed_ne_plain result (heq.symm.trans hresult)
  · exact iff_of_true ⟨_, heq⟩ h

/-- One entry at the start of the file, from character 1 on, with the largest delta. -/
def largestDelta : List UInt8 :=
  [1, 1, 0, 0, 0, 2, 0, 0xFE, 0xFF, 0xFF, 0xFF, 0xFF, 0xFF, 0xFF, 0xFF, 0xFF, 0x01]

/-- A payload may panic. -/
theorem decode_panics : ¬ ∀ payload, ∃ result, decodeChecked payload = plain result := by
  intro h
  obtain ⟨result, hresult⟩ := h largestDelta
  exact overflowed_ne_plain result hresult

end ParadoxCode.Engine.PositionCodec
