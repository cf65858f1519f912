import ParadoxCode.Engine.PositionCodec
import ParadoxCode.Lib.Loops

/-!
# Which position payloads are written

The codec accepts a list of entries exactly where its ranges increase, no position ends before it
starts and the limit holds (`encodes_canonical`). What a reader returns is increasing, too, also
where no writer wrote it.
-/

namespace ParadoxCode.Engine.PositionCodec

open Index
open TextRange (Precedes)

/-! ## Order -/

/-- A range behind the previous one, where there is one. -/
def Follows (previous : Option TextRange) (range : TextRange) : Prop := ∀ p ∈ previous,
    Precedes p range

variable {previous : Option TextRange}

theorem regresses_eq_false_iff {range : TextRange} :
    regresses previous range = false ↔ Follows previous range := by
  cases previous with
  | none => simp [regresses, Follows]
  | some previous =>
    simp only [regresses, Follows, Precedes, Option.any_some, Option.mem_some_iff, forall_eq',
      Bool.or_eq_false_iff, decide_eq_false_iff_not, Bool.and_eq_false_imp, beq_iff_eq]
    omega

/-- A position range does not end before it starts. -/
def Ordered (position : PositionRange) : Prop :=
  position.start.line < position.stop.line ∨
    position.start.line = position.stop.line ∧ position.start.character ≤ position.stop.character

theorem not_lt_iff_ordered {position : PositionRange} :
    ¬ Position.lt position.stop position.start ↔ Ordered position := by
  unfold Position.lt Ordered
  omega

/-- Entries behind the range `previous`, in increasing order. -/
structure Increasing (previous : Option TextRange) (entries : List (TextRange × PositionRange)) :
    Prop where
  follow : ∀ entry ∈ entries, Follows previous entry.1
  pairwise : entries.Pairwise fun left right => Precedes left.1 right.1

theorem Increasing.nil (previous : Option TextRange) : Increasing previous [] :=
  ⟨fun _ h => (nomatch h), List.Pairwise.nil⟩

variable {entries : List (TextRange × PositionRange)}

variable {entry : TextRange × PositionRange}

theorem increasing_cons : Increasing previous (entry :: entries) ↔ Follows previous entry.1 ∧
    Increasing (some entry.1) entries := by
  constructor
  · rintro ⟨hfollow, hpairwise⟩
    obtain ⟨hbehind, hrest⟩ := List.pairwise_cons.mp hpairwise
    refine ⟨hfollow entry List.mem_cons_self, fun other hother p hp => ?_, hrest⟩
    obtain rfl := Option.mem_some_iff.mp hp
    exact hbehind other hother
  · rintro ⟨hentry, hfollow, hpairwise⟩
    have hbehind : ∀ other ∈ entries, Precedes entry.1 other.1 := fun other hother =>
      hfollow other hother entry.1 rfl
    refine ⟨?_, List.pairwise_cons.mpr ⟨hbehind, hpairwise⟩⟩
    rw [List.forall_mem_cons]
    exact ⟨hentry, fun other hother p hp => (hentry p hp).trans (hbehind other hother)⟩

/-! ## What is written -/

theorem encodeEntry_isOk_iff : (∃ bytes, encodeEntry previous entry = .ok bytes) ↔ Ordered entry.2 ∧
    Follows previous entry.1 := by
  rw [← not_lt_iff_ordered, ← regresses_eq_false_iff]
  unfold encodeEntry
  dsimp only
  constructor
  · rintro ⟨bytes, h⟩
    split_ifs at h with hlt hregresses
    exact ⟨hlt, Bool.not_eq_true _ ▸ hregresses⟩
  · rintro ⟨hlt, hregresses⟩
    rw [if_neg hlt, hregresses]
    exact ⟨_, rfl⟩

theorem encodeEntries_isOk_iff : ∀ {previous : Option TextRange},
    (∃ bytes, encodeEntries previous entries = .ok bytes) ↔
      (∀ entry ∈ entries, Ordered entry.2) ∧ Increasing previous entries := by
  induction entries with
  | nil =>
    intro previous
    exact ⟨fun _ => ⟨fun _ h => (nomatch h), Increasing.nil previous⟩, fun _ => ⟨[], rfl⟩⟩
  | cons entry entries ih =>
    intro previous
    rw [increasing_cons, List.forall_mem_cons]
    unfold encodeEntries
    constructor
    · rintro ⟨bytes, h⟩
      obtain ⟨first, hfirst, h⟩ := Except.bind_eq_ok_iff.mp h
      obtain ⟨more, hmore, -⟩ := Except.bind_eq_ok_iff.mp h
      obtain ⟨hordered, hfollows⟩ := encodeEntry_isOk_iff.mp ⟨first, hfirst⟩
      obtain ⟨hrest, hincreasing⟩ := ih.mp ⟨more, hmore⟩
      exact ⟨⟨hordered, hrest⟩, hfollows, hincreasing⟩
    · rintro ⟨⟨hordered, hrest⟩, hfollows, hincreasing⟩
      obtain ⟨first, hfirst⟩ := encodeEntry_isOk_iff.mpr ⟨hordered, hfollows⟩
      obtain ⟨more, hmore⟩ := ih.mpr ⟨hrest, hincreasing⟩
      refine ⟨first ++ more, ?_⟩
      rw [hfirst, Except.ok_bind, hmore]
      rfl

/-- The lists of entries that have a payload. -/
structure Canonical (entries : List (TextRange × PositionRange)) : Prop where
  increasing : entries.Pairwise fun left right => Precedes left.1 right.1
  ordered : ∀ entry ∈ entries, Ordered entry.2
  limit : entries.length ≤ Cache.maxCacheSymbols

theorem encode_isOk_iff : (∃ payload, encode entries = .ok payload) ↔ Canonical entries := by
  unfold encode
  constructor
  · rintro ⟨payload, h⟩
    split_ifs at h with hcount
    obtain ⟨bytes, hbytes, -⟩ := Except.bind_eq_ok_iff.mp h
    obtain ⟨hordered, hincreasing⟩ := encodeEntries_isOk_iff.mp ⟨bytes, hbytes⟩
    exact ⟨hincreasing.pairwise, hordered, Nat.le_of_not_lt hcount⟩
  · rintro ⟨hincreasing, hordered, hlimit⟩
    have hfollow : Increasing none entries := ⟨fun _ _ _ h => (nomatch h), hincreasing⟩
    obtain ⟨bytes, hbytes⟩ := encodeEntries_isOk_iff.mpr ⟨hordered, hfollow⟩
    rw [if_neg (Nat.not_lt_of_le hlimit), hbytes]
    exact ⟨_, rfl⟩

/-! ## What is read -/

theorem readU32_eq_ok {value : Int} {error : String} {n : Nat} (h : readU32 value error = .ok n) :
    (n : Int) = value ∧ n ≤ u32Max := by
  unfold readU32 at h
  split_ifs at h with hrange
  obtain rfl := Except.ok.inj h
  omega

theorem decodeEntry_ok {bytes rest : List UInt8}
    (h : decodeEntry previous bytes = .ok (entry, rest)) : Fits entry ∧
    Follows previous entry.1 := by
  unfold decodeEntry at h
  obtain ⟨⟨delta, bytes⟩, -, h⟩ := Except.bind_eq_ok_iff.mp h
  obtain ⟨delta, -, h⟩ := Except.bind_eq_ok_iff.mp h
  obtain ⟨start, -, h⟩ := Except.bind_eq_ok_iff.mp h
  obtain ⟨⟨length, bytes⟩, -, h⟩ := Except.bind_eq_ok_iff.mp h
  obtain ⟨length, -, h⟩ := Except.bind_eq_ok_iff.mp h
  obtain ⟨stop, hstop, h⟩ := Except.bind_eq_ok_iff.mp h
  obtain ⟨⟨startLine, bytes⟩, -, h⟩ := Except.bind_eq_ok_iff.mp h
  obtain ⟨startLine, hstartLine, h⟩ := Except.bind_eq_ok_iff.mp h
  obtain ⟨⟨startCharacter, bytes⟩, -, h⟩ := Except.bind_eq_ok_iff.mp h
  obtain ⟨startCharacter, hstartCharacter, h⟩ := Except.bind_eq_ok_iff.mp h
  obtain ⟨⟨lineDelta, bytes⟩, -, h⟩ := Except.bind_eq_ok_iff.mp h
  obtain ⟨lineDelta, -, h⟩ := Except.bind_eq_ok_iff.mp h
  obtain ⟨endLine, hendLine, h⟩ := Except.bind_eq_ok_iff.mp h
  obtain ⟨⟨characterDelta, bytes⟩, -, h⟩ := Except.bind_eq_ok_iff.mp h
  obtain ⟨endCharacter, hendCharacter, h⟩ := Except.bind_eq_ok_iff.mp h
  unfold TextRange.new at h
  split_ifs at h with hle
  dsimp only at h
  split_ifs at h with hregresses
  obtain ⟨rfl, rfl⟩ := Prod.mk.inj (Except.ok.inj h)
  exact ⟨⟨(readU32_eq_ok hstop).2, (readU32_eq_ok hstartLine).2, (readU32_eq_ok hstartCharacter).2,
    (readU32_eq_ok hendLine).2, (readU32_eq_ok hendCharacter).2⟩,
    regresses_eq_false_iff.mp (Bool.not_eq_true _ ▸ hregresses)⟩

theorem decodeEntries_ok : ∀ {count : Nat} {previous : Option TextRange} {bytes rest : List UInt8}
    {entries : List (TextRange × PositionRange)}, decodeEntries count previous bytes =
      .ok (entries, rest) →
    (∀ entry ∈ entries, Fits entry) ∧ Increasing previous entries := by
  intro count
  induction count with
  | zero =>
    intro previous bytes rest entries h
    obtain ⟨rfl, rfl⟩ := Prod.mk.inj (Except.ok.inj h)
    exact ⟨fun _ h => (nomatch h), Increasing.nil previous⟩
  | succ count ih =>
    intro previous bytes rest entries h
    unfold decodeEntries at h
    obtain ⟨⟨entry, bytes⟩, hentry, h⟩ := Except.bind_eq_ok_iff.mp h
    obtain ⟨⟨more, bytes⟩, hmore, h⟩ := Except.bind_eq_ok_iff.mp h
    obtain ⟨rfl, rfl⟩ := Prod.mk.inj (Except.ok.inj h)
    obtain ⟨hfits, hfollows⟩ := decodeEntry_ok hentry
    obtain ⟨hrest, hincreasing⟩ := ih hmore
    exact ⟨List.forall_mem_cons.mpr ⟨hfits, hrest⟩, increasing_cons.mpr ⟨hfollows, hincreasing⟩⟩

theorem decode_ok {payload : List UInt8}
    (h : decode payload = .ok entries) : (∀ entry ∈ entries, Fits entry) ∧
    Increasing none entries := by
  unfold decode at h
  split at h
  · cases h
  split_ifs at h
  obtain ⟨⟨count, bytes⟩, -, h⟩ := Except.bind_eq_ok_iff.mp h
  dsimp only at h
  split_ifs at h
  obtain ⟨⟨read, rest⟩, hread, h⟩ := Except.bind_eq_ok_iff.mp h
  dsimp only at h
  split_ifs at h
  obtain rfl := Except.ok.inj h
  exact decodeEntries_ok hread

/-! ## The codec -/

/-- An entry of 32-bit numbers. -/
abbrev NavigationEntry : Type := { entry : TextRange × PositionRange // Fits entry }

/-- A list of entries is written exactly where it is canonical, and what was written is read back.
What is read from any payload is increasing, and is read again where it can be written. -/
theorem encodes_canonical :
    (∀ entries : List NavigationEntry,
      ((∃ payload, encode (entries.map Subtype.val) = .ok payload) ↔
        Canonical (entries.map Subtype.val)) ∧
      ∀ payload, encode (entries.map Subtype.val) = .ok payload →
        decode payload = .ok (entries.map Subtype.val)) ∧
    ∀ payload entries, decode payload = .ok entries →
      (entries.Pairwise fun left right => Precedes left.1 right.1) ∧
      ∀ written, encode entries = .ok written → decode written = .ok entries := by
  refine ⟨fun entries => ⟨encode_isOk_iff, fun payload h =>
    decode_encode (fun entry hentry => ?_) h⟩,
    fun payload entries h => ⟨(decode_ok h).2.pairwise, fun written hwritten =>
      decode_encode (decode_ok h).1 hwritten⟩⟩
  obtain ⟨entry, -, rfl⟩ := List.mem_map.mp hentry
  exact entry.2

end ParadoxCode.Engine.PositionCodec
