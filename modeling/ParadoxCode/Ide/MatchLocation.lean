import ParadoxCode.Ide.ReadableText
import ParadoxCode.Ide.Resolution
import ParadoxCode.Ide.TextHits

/-!
# The location of a match in a localisation value

`search.rs` of the ide crate: `LocalisationQuery` folds a value as a whole, and
`editor_localisation_match_location` folds its readable form character by character, with a table
from the bytes of the folded text to the source. The case of characters is a parameter.
-/

namespace ParadoxCode.Ide.LocalisationSearch

open ParadoxCode.Format (eqIgnoreAsciiCase)
open ParadoxCode.Index (decodeValue)

/-! ## Queries -/

/-- `str::split_whitespace`. -/
def splitWhitespace (text : Str) : List Str := (text.splitOnP isWhitespace).filter fun word =>
    !word.isEmpty

/-- `str::is_ascii`. -/
def isAscii (text : Str) : Bool := text.all fun c => decide (c.toNat < 0x80)

/-- The words of a query. -/
structure LocalisationQuery where
  words : List Str
  deriving DecidableEq

/-- A window of an ASCII value is an ASCII word in another case. -/
def hasWindow (value word : Str) : Bool :=
  (List.range (value.length + 1 - word.length)).any fun i =>
    eqIgnoreAsciiCase ((value.drop i).take word.length) word

section

variable (table : CaseTable)

/-- `LocalisationQuery::new`. -/
def LocalisationQuery.new (query : Str) : LocalisationQuery :=
  ⟨(splitWhitespace query).map table.toLowercase⟩

/-- `LocalisationQuery::matches`. -/
def LocalisationQuery.accepts (query : LocalisationQuery) (value : Str) : Bool :=
  if query.words.isEmpty = true then false
  else if isAscii value = true then
    query.words.all fun word => isAscii word && decide (word.length ≤ value.length) &&
      hasWindow value word
  else query.words.all fun word => (Substrings.find word (table.toLowercase value)).isSome

end

/-! ## Entries -/

/-- `EditorLocalisationEntry`. -/
structure EditorLocalisationEntry where
  source : Str
  document : Option Str
  file : Option Nat
  path : Option Str
  record : LocalisationValue

namespace EditorLocalisationEntry

variable (entry : EditorLocalisationEntry)

/-- `EditorLocalisationEntry::value`. -/
def value : Str := entry.record.readable.getD (sourceText entry.source entry.record.readableRange)

/-- `EditorLocalisationEntry::location`. -/
def location : Location := ⟨entry.document, entry.file, entry.path, entry.record.keyRange⟩

/-- The entry comes from the values of a file. -/
structure Collected : Prop where
  record : ∃ language key value, entry.record = entryValue entry.source language key value
  fits : entry.record.valueRange.stop ≤ u32Max

end EditorLocalisationEntry

/-! ## The location -/

/-- A character with the part of the source that spells it. -/
structure DecodedUnit where
  character : Char
  start : Nat
  stop : Nat
  deriving DecidableEq

def DecodedUnit.span (unit : DecodedUnit) : Nat × Nat := (unit.start, unit.stop)

/-- The loop that decodes a value; what is skipped belongs to the triple before. -/
def decodedUnits : Nat → Nat → Str → List DecodedUnit
  | _, _, [] => []
  | offset, skip + 1, c :: rest => decodedUnits (offset + c.utf8Size) skip rest
  | offset, 0, c :: rest =>
    if isMarker c = true then
      let triple := c :: rest.take 2
      (decodeValue triple).map (fun c => ⟨c, offset, offset + byteLen triple⟩) ++
        decodedUnits (offset + c.utf8Size) 2 rest
    else ⟨c, offset, offset + c.utf8Size⟩ :: decodedUnits (offset + c.utf8Size) 0 rest

/-- The loop that drops display controls and reads newline escapes. -/
def shownUnits : List DecodedUnit → List DecodedUnit
  | [] => []
  | [unit] => [unit]
  | unit :: next :: rest =>
    if unit.character = '§' ∧ (next.character.isAlphanum ∨ next.character = '!') then
      shownUnits rest
    else if unit.character = '\\' ∧ next.character = 'n' then
      ⟨'\n', unit.start, next.stop⟩ :: shownUnits rest
    else unit :: shownUnits (next :: rest)

section

variable (table : CaseTable)

/-- The small letters of a unit. -/
def unitRun (unit : DecodedUnit) : Str := table.lower unit.character

/-- The first word of a query. -/
def firstWord (query : Str) : Option Str := (splitWhitespace query).head?.map table.toLowercase

/-- Where a value stands without its quotes. -/
def innerRange (raw : Str) (range : TextRange) : Nat × Nat :=
  let quoted := raw.head? == some '"'
  (range.start + if quoted = true then 1 else 0,
    range.stop - if quoted = true ∧ raw.getLast? = some '"' then 1 else 0)

/-- The range of a word in an ASCII value that is shown as it is spelled. -/
def asciiRange (word raw : Str) (start : Nat) : Option TextRange := do
  let offset ← findText word (toAsciiLowercase raw)
  let first ← tryU32 (start + offset)
  let last ← tryU32 (start + offset + byteLen word)
  TextRange.new first last

/-- The range of a word in a value. -/
def unitRange (word : Str) (units : List DecodedUnit) : Option TextRange := do
  let positions := Traced.origins (unitRun table) DecodedUnit.span units
  let offset ← findText word (Traced.text (unitRun table) units)
  let (first, _) ← positions[offset]?
  let (_, last) ← positions[offset + byteLen word - 1]?
  let first ← tryU32 first
  let last ← tryU32 last
  TextRange.new first last

/-- `editor_localisation_match_location`. -/
def matchLocation (entry : EditorLocalisationEntry) (query : Str) : Option Location := do
  let range := entry.record.valueRange
  let raw ← getText entry.source range.start range.stop
  let (start, stop) := innerRange raw range
  let raw ← getText entry.source start stop
  let word ← firstWord table query
  let range ←
    if entry.record.readable.isNone = true ∧ isAscii raw = true then asciiRange word raw start
    else unitRange table word (shownUnits (decodedUnits start 0 raw))
  some { entry.location with range := range }

end

/-- The location of a word: it is inside the value and shows the word. -/
structure Locates (table : CaseTable) (entry : EditorLocalisationEntry) (word : Str)
    (location : Location) : Prop where
  inside : entry.record.valueRange.start ≤ location.range.start ∧
    location.range.stop ≤ entry.record.valueRange.stop
  shows : ∃ text, getText entry.source location.range.start location.range.stop = some text ∧
    word <:+: table.lowerEach (readableText text)

/-! ## Decoded units -/

section Units

variable {text : Str} {offset k : Nat}

theorem decodedUnits_whole {segment : Str} (h : Whole segment) (rest : Str) (offset : Nat) :
    decodedUnits offset 0 (segment ++ rest) =
      (decodeValue segment).map (fun c => ⟨c, offset, offset + byteLen segment⟩) ++
        decodedUnits (offset + byteLen segment) 0 rest := by
  cases h with
  | @character c h =>
    rw [List.singleton_append, decodedUnits, if_neg (by rw [h]; exact Bool.false_ne_true),
      decodeValue_character h, decodeValue_nil, byteLen_cons, byteLen_nil]
    rfl
  | @triple c low high h =>
    change decodedUnits offset 0 (c :: low :: high :: rest) = _
    rw [decodedUnits, if_pos h]
    dsimp only [decodedUnits, List.take]
    rw [byteLen_cons, byteLen_cons, byteLen_cons, byteLen_nil, Nat.add_zero, ← Nat.add_assoc,
      ← Nat.add_assoc]

theorem decodedUnits_short (h : Short text) (offset : Nat) :
    decodedUnits offset 0 text = text.map fun c => ⟨c, offset, offset + byteLen text⟩ := by
  have hdecoded := h.decodeValue
  obtain ⟨c, rest, rfl, hmarker, hrest⟩ := h
  rw [decodedUnits, if_pos hmarker]
  dsimp only
  rw [List.take_of_length_le (Nat.le_of_lt_succ (Nat.lt_succ_of_lt hrest)), hdecoded]
  match rest with
  | [] => rfl
  | [d] => rfl
  | d :: e :: rest => exact absurd hrest (by simp)

/-- The units spell the decoded text. -/
theorem character_decodedUnits (text : Str) : ∀ offset,
    (decodedUnits offset 0 text).map DecodedUnit.character = decodeValue text := by
  induction text using segment_induction with
  | nil => exact fun _ => rfl
  | short text h =>
    intro offset
    rw [decodedUnits_short h, h.decodeValue, List.map_map]
    exact List.map_id text
  | whole segment rest h ih =>
    intro offset
    rw [decodedUnits_whole h, List.map_append, ih, h.complete, List.map_map]
    exact congrArg (· ++ decodeValue rest) (List.map_id _)

/-- A unit with its segment, and with what is read before it. -/
theorem decodedUnits_split (text : Str) : ∀ {offset k : Nat} {unit : DecodedUnit},
    (decodedUnits offset 0 text)[k]? = some unit → ∃ front segment back,
      text = front ++ (segment ++ back) ∧
      Complete front ∧ unit.start = offset + byteLen front ∧
        unit.stop = offset + byteLen (front ++ segment) ∧
        (Whole segment ∧ k = (decodeValue front).length ∨
          Short segment ∧ back = [] ∧
          (k = (decodeValue front).length ∨ k = (decodeValue front).length + 1)) := by
  induction text using segment_induction with
  | nil => exact fun h => absurd h (by simp [decodedUnits])
  | short text hshort =>
    intro offset k unit h
    rw [decodedUnits_short hshort] at h
    obtain ⟨hk, hunit⟩ := List.getElem?_eq_some_iff.mp h
    rw [List.getElem_map] at hunit
    rw [List.length_map] at hk
    refine ⟨[], text, [], (List.append_nil _).symm, .nil, ?_, ?_, .inr ⟨hshort, rfl, ?_⟩⟩
    · rw [← hunit, byteLen_nil, Nat.add_zero]
    · rw [← hunit, List.nil_append]
    · obtain ⟨c, rest, rfl, -, hrest⟩ := hshort
      rw [List.length_cons] at hk
      rw [decodeValue_nil, List.length_nil]
      omega
  | whole segment rest hwhole ih =>
    intro offset k unit h
    obtain ⟨c, hc, -⟩ := hwhole.decodeValue
    rw [decodedUnits_whole hwhole, hc] at h
    cases k with
    | zero =>
      obtain rfl := Option.some.inj h
      exact ⟨[], segment, rest, rfl, .nil, rfl, rfl, .inl ⟨hwhole, rfl⟩⟩
    | succ k =>
      obtain ⟨front, segment', back, rfl, hcomplete, hstart, hstop, hplace⟩ := ih h
      refine ⟨segment ++ front, segment', back, (List.append_assoc _ _ _).symm,
        hwhole.complete.append hcomplete, ?_, ?_, ?_⟩
      · rw [hstart, byteLen_append, Nat.add_assoc]
      · rw [hstop, List.append_assoc segment, byteLen_append segment, Nat.add_assoc]
      · rw [hwhole.complete, hc, List.singleton_append, List.length_cons]
        obtain ⟨hsegment, rfl⟩ | ⟨hsegment, hback, hk⟩ := hplace
        · exact .inl ⟨hsegment, rfl⟩
        · exact .inr ⟨hsegment, hback, by omega⟩

end Units

/-! ## Shown units -/

theorem character_shownUnits (units : List DecodedUnit) :
    (shownUnits units).map DecodedUnit.character = readableLocalisation
      (units.map DecodedUnit.character) := by
  induction units using shownUnits.induct with
  | case1 => rfl
  | case2 unit => rfl
  | case3 unit next rest hcontrol ih =>
    rw [shownUnits, if_pos hcontrol, ih, List.map_cons, List.map_cons, readableLocalisation,
      if_pos hcontrol]
  | case4 unit next rest hcontrol hbreak ih =>
    rw [shownUnits, if_neg hcontrol, if_pos hbreak, List.map_cons, ih, List.map_cons, List.map_cons,
      readableLocalisation, if_neg hcontrol, if_pos hbreak]
  | case5 unit next rest hcontrol hbreak ih =>
    rw [shownUnits, if_neg hcontrol, if_neg hbreak, List.map_cons, ih]
    simp only [List.map_cons]
    conv_rhs => rw [readableLocalisation, if_neg hcontrol, if_neg hbreak]

/-- What is shown as one unit: one unit, or a newline escape. -/
structure Shown (units : List DecodedUnit) (index : Nat) (unit : DecodedUnit)
    (front cell back : List DecodedUnit) :
    Prop where
  split : units = front ++ (cell ++ back)
  start : ∃ first ∈ cell.head?, unit.start = first.start
  stop : ∃ last ∈ cell.getLast?, unit.stop = last.stop
  before : (shownUnits front).length = index
  through : (shownUnits (front ++ cell)).length = index + 1
  apart : Apart (front.map DecodedUnit.character) ((cell ++ back).map DecodedUnit.character)
  apart' : Apart ((front ++ cell).map DecodedUnit.character) (back.map DecodedUnit.character)

theorem Shown.cons_pair {units : List DecodedUnit} {index : Nat} {unit : DecodedUnit}
    {front cell back : List DecodedUnit} (h : Shown units index unit front cell back)
    {a b : DecodedUnit} (count : Nat) (hletter : ∀ c, ¬ Pair b.character c)
    (hlength : ∀ rest, (shownUnits (a :: b :: rest)).length = (shownUnits rest).length + count) :
    Shown (a :: b :: units) (index + count) unit (a :: b :: front) cell back where
  split := by rw [h.split]; rfl
  start := h.start
  stop := h.stop
  before := by rw [hlength, h.before]
  through := by
    rw [List.cons_append, List.cons_append, hlength, h.through]
    omega
  apart := fun c hc d hd => by
    cases front with
    | nil =>
      obtain rfl := Option.some.inj hc
      exact hletter d
    | cons e front => exact h.apart c hc d hd
  apart' := fun c hc d hd => by
    cases hfront : front ++ cell with
    | nil =>
      rw [List.cons_append, List.cons_append, hfront] at hc
      obtain rfl := Option.some.inj hc
      exact hletter d
    | cons e rest =>
      rw [List.cons_append, List.cons_append, hfront] at hc
      refine h.apart' c ?_ d hd
      rw [hfront]
      exact hc

theorem shownUnits_kept {unit : DecodedUnit} {rest : List DecodedUnit}
    (h : Apart [unit.character] (rest.map DecodedUnit.character)) :
    shownUnits (unit :: rest) = unit :: shownUnits rest := by
  cases rest with
  | nil => rfl
  | cons next rest =>
    have hpair : ¬ Pair unit.character next.character := h _ rfl _ rfl
    rw [shownUnits, if_neg fun hcontrol => hpair (.inl hcontrol),
      if_neg fun hbreak => hpair (.inr hbreak)]

theorem Apart.of_front {a : Char} {front back : Str} (h : Apart [a] (front ++ back)) :
    Apart [a] front := by
  cases front with
  | nil => exact fun _ _ _ hb => absurd hb (by simp)
  | cons b front => exact h

theorem shownUnits_split (units : List DecodedUnit) : ∀ {index : Nat} {unit : DecodedUnit},
    (shownUnits units)[index]? = some unit → ∃ front cell back,
      Shown units index unit front cell back := by
  have hapart : ∀ back : Str, Apart [] back := fun _ _ ha => absurd ha (by simp)
  have hapart' : ∀ front : Str, Apart front [] := fun _ _ _ _ hb => absurd hb (by simp)
  have hn : ∀ c, ¬ Pair 'n' c := fun c h => by
    obtain ⟨hsection, -⟩ | ⟨hslash, -⟩ := h
    · exact absurd hsection (by decide)
    · exact absurd hslash (by decide)
  induction units using shownUnits.induct with
  | case1 => exact fun h => absurd h (by simp [shownUnits])
  | case2 first =>
    intro index unit h
    cases index with
    | zero =>
      obtain rfl := Option.some.inj h
      exact ⟨[], [first], [], rfl, ⟨_, rfl, rfl⟩, ⟨_, rfl, rfl⟩, rfl, rfl, hapart _, hapart' _⟩
    | succ index => exact absurd h (by simp [shownUnits])
  | case3 first next rest hcontrol ih =>
    intro index unit h
    rw [shownUnits, if_pos hcontrol] at h
    obtain ⟨front, cell, back, hshown⟩ := ih h
    refine ⟨_, cell, back, hshown.cons_pair 0 (fun c hpair => ?_) fun rest => ?_⟩
    · obtain ⟨hsection, -⟩ | ⟨hslash, -⟩ := hpair
      · rw [hsection] at hcontrol
        exact absurd hcontrol.2 (by decide)
      · rw [hslash] at hcontrol
        exact absurd hcontrol.2 (by decide)
    · rw [shownUnits, if_pos hcontrol]
      rfl
  | case4 first next rest hcontrol hbreak ih =>
    intro index unit h
    rw [shownUnits, if_neg hcontrol, if_pos hbreak] at h
    cases index with
    | zero =>
      obtain rfl := Option.some.inj h
      refine ⟨[], [first, next], rest, rfl, ⟨_, rfl, rfl⟩, ⟨_, rfl, rfl⟩, rfl, ?_, hapart _,
        fun a ha b _ => ?_⟩
      · rw [List.nil_append, shownUnits, if_neg hcontrol, if_pos hbreak]
        rfl
      · obtain rfl : next.character = a := Option.some.inj ha
        rw [hbreak.2]
        exact hn b
    | succ index =>
      obtain ⟨front, cell, back, hshown⟩ := ih h
      refine ⟨_, cell, back, hshown.cons_pair 1 (fun c => ?_) fun rest => ?_⟩
      · rw [hbreak.2]
        exact hn c
      · rw [shownUnits, if_neg hcontrol, if_pos hbreak]
        rfl
  | case5 first next rest hcontrol hbreak ih =>
    intro index unit h
    have hpair : ¬ Pair first.character next.character := fun hpair => hpair.elim hcontrol hbreak
    rw [shownUnits, if_neg hcontrol, if_neg hbreak] at h
    have hfirst : Apart [first.character] ((next :: rest).map DecodedUnit.character) :=
      fun a ha b hb => by
      obtain rfl := Option.some.inj ha
      obtain rfl := Option.some.inj hb
      exact hpair
    cases index with
    | zero =>
      obtain rfl := Option.some.inj h
      exact ⟨[], [first], next :: rest, rfl, ⟨_, rfl, rfl⟩, ⟨_, rfl, rfl⟩, rfl, rfl,
        hapart _, hfirst⟩
    | succ index =>
      obtain ⟨front, cell, back, hshown⟩ := ih h
      have hsplit := hshown.split
      have hfront : Apart [first.character] (front.map DecodedUnit.character) := by
        rw [hsplit, List.map_append] at hfirst
        exact hfirst.of_front
      have hthrough : Apart [first.character] ((front ++ cell).map DecodedUnit.character) := by
        rw [hsplit, ← List.append_assoc, List.map_append] at hfirst
        exact hfirst.of_front
      refine ⟨first :: front, cell, back, by rw [hsplit]; rfl, hshown.start, hshown.stop,
        ?_, ?_, ?_, ?_⟩
      · rw [shownUnits_kept hfront, List.length_cons, hshown.before]
      · rw [List.cons_append, shownUnits_kept hthrough, List.length_cons, hshown.through]
      · intro a ha b hb
        cases front with
        | nil =>
          rw [hsplit] at hfirst
          exact hfirst a ha b hb
        | cons c front => exact hshown.apart a ha b hb
      · intro a ha b hb
        cases hcell : front ++ cell with
        | nil =>
          rw [← List.append_assoc, hcell] at hsplit
          rw [List.cons_append, hcell] at ha
          rw [hsplit] at hfirst
          exact hfirst a ha b hb
        | cons c rest =>
          rw [List.cons_append, hcell] at ha
          refine hshown.apart' a ?_ b hb
          rw [hcell]
          exact ha

/-! ## Spans -/

section Spans

variable {text : Str} {offset index : Nat} {unit : DecodedUnit}

theorem readableText_eq (text : Str) (offset : Nat) :
    readableText text = (shownUnits (decodedUnits offset 0 text)).map DecodedUnit.character := by
  rw [character_shownUnits, character_decodedUnits]
  rfl

/-- A front that is read as a front of the units. -/
theorem severs_of_units {front back : Str} {units units' : List DecodedUnit}
    (hcomplete : Complete front) (hsplit : decodedUnits offset 0 (front ++ back) = units ++ units')
    (hlength : units.length = (decodeValue front).length)
    (hapart : Apart (units.map DecodedUnit.character) (units'.map DecodedUnit.character)) :
    Severs front back ∧ (readableText front).length = (shownUnits units).length := by
  have hdecoded : decodeValue front ++ decodeValue back =
      units.map DecodedUnit.character ++ units'.map DecodedUnit.character := by
    rw [← hcomplete, ← character_decodedUnits _ offset, hsplit, List.map_append]
  obtain ⟨hfront, hback⟩ := List.append_inj hdecoded (by rw [List.length_map, hlength])
  refine ⟨⟨hcomplete, by rwa [hfront, hback]⟩, ?_⟩
  unfold readableText
  rw [hfront, ← character_shownUnits, List.length_map]

/-- A shown unit starts at a cut with no more before it. -/
theorem exists_severs_start (h : (shownUnits (decodedUnits offset 0 text))[index]? = some unit) :
    ∃ front back, text = front ++ back ∧ Severs front back ∧ unit.start = offset + byteLen front ∧
      (readableText front).length ≤ index := by
  obtain ⟨units, cell, units', hshown⟩ := shownUnits_split _ h
  obtain ⟨first, hfirst, hstart⟩ := hshown.start
  have hget : (decodedUnits offset 0 text)[units.length]? = some first := by
    rw [hshown.split, List.getElem?_append_right le_rfl, Nat.sub_self]
    cases cell with
    | nil => exact absurd hfirst (by simp)
    | cons c cell => exact hfirst
  obtain ⟨front, segment, back, rfl, hcomplete, hfrom, -, hplace⟩ := decodedUnits_split text hget
  refine ⟨front, segment ++ back, rfl, ?_⟩
  rw [hstart, hfrom]
  have hfound : units.length = (decodeValue front).length → Severs front (segment ++ back) ∧
      offset + byteLen front = offset + byteLen front ∧ (readableText front).length ≤ index :=
        fun hlength => by
    obtain ⟨hsevers, hread⟩ := severs_of_units hcomplete hshown.split hlength hshown.apart
    exact ⟨hsevers, rfl, (hread.trans hshown.before).le⟩
  obtain ⟨-, hlength⟩ | ⟨hshort, rfl, hlength | hlength⟩ := hplace
  · exact hfound hlength
  · exact hfound hlength
  · -- the second character of a triple that is cut short
    have hdecoded := hshort.decodeValue
    obtain ⟨c, rest, rfl, hmarker, -⟩ := hshort
    have hall : units.map DecodedUnit.character ++ (cell ++ units').map DecodedUnit.character =
        (decodeValue front ++ [c]) ++ rest := by
      rw [← List.map_append, ← hshown.split, character_decodedUnits, hcomplete,
        List.append_nil, hdecoded, List.append_assoc]
      rfl
    obtain ⟨hunits, -⟩ := List.append_inj hall
      (by rw [List.length_map, hlength, List.length_append]; rfl)
    have hapart : Apart (decodeValue front) (decodeValue (c :: rest ++ [])) := fun a _ b hb => by
      rw [List.append_nil, hdecoded] at hb
      obtain rfl := Option.some.inj hb
      exact not_pair_marker hmarker
    refine ⟨⟨hcomplete, hapart⟩, rfl, ?_⟩
    have hread := hshown.before
    rw [← List.length_map DecodedUnit.character, character_shownUnits, hunits,
      readableLocalisation_append (fun a _ b hb => by
      obtain rfl := Option.some.inj hb
      exact not_pair_marker hmarker), List.length_append] at hread
    unfold readableText
    omega

/-- A shown unit stops at a cut, or at the end, with the unit before it. -/
theorem exists_severs_stop (h : (shownUnits (decodedUnits offset 0 text))[index]? = some unit) :
    ∃ front back, text = front ++ back ∧ (Severs front back ∨ back = []) ∧
      unit.stop = offset + byteLen front ∧ index < (readableText front).length := by
  obtain ⟨units, cell, units', hshown⟩ := shownUnits_split _ h
  obtain ⟨last, hlast, hstop⟩ := hshown.stop
  obtain ⟨cell, rfl⟩ := List.getLast?_eq_some_iff.mp hlast
  have hget : (decodedUnits offset 0 text)[(units ++ cell).length]? = some last := by
    rw [hshown.split, ← List.append_assoc, ← List.append_assoc, List.append_assoc (units ++ cell),
      List.getElem?_append_right le_rfl, Nat.sub_self]
    rfl
  obtain ⟨front, segment, back, rfl, hcomplete, -, hto, hplace⟩ := decodedUnits_split text hget
  refine ⟨front ++ segment, back, (List.append_assoc _ _ _).symm, ?_⟩
  rw [hstop, hto]
  obtain ⟨hwhole, hlength⟩ | ⟨hshort, rfl, -⟩ := hplace
  · obtain ⟨c, hc, -⟩ := hwhole.decodeValue
    have hsplit := hshown.split
    rw [← List.append_assoc, ← List.append_assoc] at hsplit
    obtain ⟨hsevers, hread⟩ := severs_of_units (hcomplete.append hwhole.complete) hsplit (by
      rw [hcomplete, hc, ← List.append_assoc, List.length_append, hlength, List.length_append]; rfl)
        hshown.apart'
    exact ⟨.inl hsevers, rfl, by rw [hread, hshown.through]; exact Nat.lt_succ_self _⟩
  · refine ⟨.inr rfl, rfl, ?_⟩
    obtain ⟨hlt, -⟩ := List.getElem?_eq_some_iff.mp h
    rw [readableText_eq _ offset, List.length_map, ← List.append_nil segment]
    exact hlt

/-- Between two cuts the readable form is the one of the text between them. -/
theorem exists_middle {front back front' back' : Str} {first last : Nat}
    (hsplit : text = front ++ back) (hsplit' : text = front' ++ back') (hsevers : Severs front back)
    (hsevers' : Severs front' back' ∨ back' = [])
    (hfirst : (readableText front).length ≤ first) (hle : first ≤ last)
    (hlast : last < (readableText front').length) :
    ∃ middle, front' = front ++ middle ∧
      readableText text = readableText front ++ (readableText middle ++ readableText back') := by
  have horder : byteLen front ≤ byteLen front' := by
    by_contra hlt
    obtain ⟨middle, rfl, rfl⟩ := append_prefix_byteLen (hsplit'.symm.trans hsplit)
      (Nat.le_of_not_le hlt)
    obtain hsevers' | hback := hsevers'
    · rw [hsevers'.readableText, List.length_append] at hfirst
      omega
    · obtain ⟨rfl, rfl⟩ := List.append_eq_nil_iff.mp hback
      exact hlt (by rw [List.append_nil])
  obtain ⟨middle, rfl, rfl⟩ := append_prefix_byteLen (hsplit.symm.trans hsplit') horder
  refine ⟨middle, rfl, ?_⟩
  have htext : readableText text = readableText (front ++ middle) ++ readableText back' := by
    obtain hsevers' | rfl := hsevers'
    · have hcut : Severs (front ++ middle) (back' ++ []) := by rwa [List.append_nil]
      rw [hsplit', ← hcut.readableText]
    · rw [hsplit', List.append_nil]
      exact (List.append_nil _).symm
  rw [htext, hsevers.readableText, List.append_assoc]

variable (table : CaseTable)

theorem text_unitRun (units : List DecodedUnit) :
    Traced.text (unitRun table) units = table.lowerEach (units.map DecodedUnit.character) := by
  unfold Traced.text CaseTable.lowerEach unitRun
  rw [List.flatMap_map]

theorem lowerEach_append (front back : Str) :
    table.lowerEach (front ++ back) = table.lowerEach front ++ table.lowerEach back :=
      List.flatMap_append

variable {table}

/-- What stands before a unit in the folded text is folded from what is read before it. -/
theorem place_unitRun (units : List DecodedUnit) (index : Nat) :
    Traced.place (unitRun table) units index =
      (table.lowerEach ((units.map DecodedUnit.character).take index)).length := by
  unfold Traced.place
  rw [text_unitRun, List.map_take]

variable (offset) in
/-- The text that is found for an occurrence of a word. -/
theorem exists_found {word : Str} {i : Nat} (hword : word ≠ [])
    (hocc : Substrings.OccursAt word (table.lowerEach (readableText text)) i) :
    ∃ (front middle back : Str) (first last : DecodedUnit),
      text = front ++ (middle ++ back) ∧ word <:+: table.lowerEach (readableText middle) ∧
      first.start = offset + byteLen front ∧ last.stop = offset + byteLen (front ++ middle) ∧
      let units := shownUnits (decodedUnits offset 0 text)
      let positions := Traced.origins (unitRun table) DecodedUnit.span units
      let start := byteLen ((table.lowerEach (readableText text)).take i)
      positions[start]? = some first.span ∧ positions[start + byteLen word - 1]? =
        some last.span := by
  have hpos : 0 < word.length := List.length_pos_iff.mpr hword
  have hread := readableText_eq text offset
  have hfolded : Traced.text (unitRun table) (shownUnits (decodedUnits offset 0 text)) =
      table.lowerEach (readableText text) := by rw [text_unitRun, hread]
  have hlength : i + word.length ≤ (Traced.text (unitRun table)
    (shownUnits (decodedUnits offset 0 text))).length :=
    hfolded ▸ hocc.1
  obtain ⟨first, hfirst⟩ := Traced.exists_holds
    (by omega : i < (Traced.text (unitRun table) (shownUnits (decodedUnits offset 0 text))).length)
  obtain ⟨last, hlast⟩ := Traced.exists_holds
    (by omega : i + word.length - 1 <
      (Traced.text (unitRun table) (shownUnits (decodedUnits offset 0 text))).length)
  obtain ⟨front, back, hsplit, hsevers, hstart, hbefore⟩ :=
    exists_severs_start (List.getElem?_eq_getElem hfirst.lt)
  obtain ⟨front', back', hsplit', hsevers', hstop, hthrough⟩ :=
    exists_severs_stop (List.getElem?_eq_getElem hlast.lt)
  obtain ⟨middle, rfl, hmiddle⟩ := exists_middle hsplit hsplit' hsevers hsevers' hbefore
    (hfirst.le hlast (by omega)) hthrough
  refine ⟨front, middle, back', _, _, by rw [hsplit', List.append_assoc], ?_, hstart, hstop, ?_, ?_⟩
  · -- the occurrence is behind what is read before, and before what is read behind
    have hcut : table.lowerEach (readableText text) = table.lowerEach (readableText front) ++
        (table.lowerEach (readableText middle) ++ table.lowerEach (readableText back')) := by
      rw [hmiddle, lowerEach_append, lowerEach_append]
    have hplace := hfirst.place_le
    have hplace' := hlast.lt_place
    rw [place_unitRun, ← hread, hmiddle] at hplace hplace'
    have hle : (table.lowerEach (readableText front)).length ≤ i := by
      refine Nat.le_trans ?_ hplace
      rw [List.take_append, List.take_of_length_le hbefore, lowerEach_append, List.length_append]
      exact Nat.le_add_right _ _
    have hthrough' : readableText (front ++ middle) = readableText front ++
      readableText middle := by
      have hcut : Severs front (middle ++ back') := by
        rw [hsplit, List.append_assoc, List.append_cancel_left_eq] at hsplit'
        rwa [hsplit'] at hsevers
      exact hcut.readableText
    have hlt : i + word.length - 1 <
        (table.lowerEach (readableText front)).length +
          (table.lowerEach (readableText middle)).length := by
      refine Nat.lt_of_lt_of_le hplace' ?_
      rw [hthrough', List.length_append] at hthrough
      rw [← List.append_assoc, List.take_append_of_le_length (by rw [List.length_append]; omega),
        ← List.length_append, ← lowerEach_append]
      conv_rhs => rw [← List.take_append_drop (last + 1)
        (readableText front ++ readableText middle), lowerEach_append, List.length_append]
      exact Nat.le_add_right _ _
    rw [hcut] at hocc
    exact Substrings.infix_of_occursAt hocc hle (by omega)
  · have horigin := Traced.origins_first DecodedUnit.span hfirst
    rw [hfolded] at horigin
    exact horigin
  · have horigin := Traced.origins_last DecodedUnit.span hlast
    rw [hfolded, Nat.sub_add_cancel (by omega)] at horigin
    rw [byteLen_take_add hocc]
    exact horigin

end Spans

/-! ## Values -/

/-- A value without the quotes that it starts in. -/
def innerText (raw : Str) : Str := if raw.head? = some '"' then unquotedValue raw else raw

section Values

variable {entry : EditorLocalisationEntry} {raw : Str} {range : TextRange} {source : Str}

theorem unquotedValue_quoted (front : Str) :
    unquotedValue ('"' :: front) = if front.getLast? = some '"' then
      front.dropLast else front := rfl

theorem unquotedValue_open (h : raw.head? ≠ some '"') :
    unquotedValue raw = if raw.getLast? = some '"' then raw.dropLast else raw := by
  unfold unquotedValue
  rw [if_neg h]

/-- The unquoted value is a front of what the locator reads. -/
theorem unquotedValue_front (raw : Str) : unquotedValue raw <+: innerText raw := by
  unfold innerText
  split_ifs with h
  · exact List.prefix_rfl
  · rw [unquotedValue_open h]
    split_ifs
    · exact List.dropLast_prefix raw
    · exact List.prefix_rfl

/-- Where the locator reads a value. -/
theorem getText_innerRange (hraw : getText source range.start range.stop = some raw)
    (hvalue : unquotedValue raw ≠ []) :
    getText source (innerRange raw range).1 (innerRange raw range).2 = some (innerText raw) ∧
      range.start ≤ (innerRange raw range).1 ∧ (innerRange raw range).2 ≤ range.stop := by
  obtain ⟨before, after, rfl, hstart, hstop⟩ := getText_eq_some_iff.mp hraw
  have hquote : byteLen ['"'] = 1 := rfl
  unfold innerRange innerText
  by_cases hquoted : raw.head? = some '"'
  · obtain ⟨front, rfl⟩ : ∃ front, raw = '"' :: front := by
      cases raw with
      | nil => cases hquoted
      | cons c front => exact ⟨front, by rw [Option.some.inj hquoted]⟩
    have hsize : byteLen ('"' :: front) = 1 + byteLen front := byteLen_cons _ _
    rw [unquotedValue_quoted] at hvalue ⊢
    dsimp only
    rw [hquoted, beq_self_eq_true, if_pos rfl, if_pos rfl]
    by_cases hclosed : ('"' :: front).getLast? = some '"'
    · rw [if_pos ⟨rfl, hclosed⟩]
      cases front with
      | nil => exact absurd rfl hvalue
      | cons c front =>
        rw [List.getLast?_cons_cons] at hclosed
        obtain ⟨middle, hmiddle⟩ := List.getLast?_eq_some_iff.mp hclosed
        have hinner : byteLen (c :: front) = byteLen middle +
          1 := by rw [hmiddle, byteLen_append, hquote]
        rw [if_pos hclosed, hmiddle, List.dropLast_concat]
        refine ⟨getText_eq_some_iff.mpr ⟨before ++ ['"'], '"' :: after, by simp, ?_,
          ?_⟩, by omega, by omega⟩
        · rw [byteLen_append, hquote, hstart]
        · omega
    · rw [if_neg fun h => hclosed h.2]
      have hfront : ¬ front.getLast? = some '"' := by
        cases front with
        | nil => simp
        | cons c front => rwa [List.getLast?_cons_cons] at hclosed
      rw [if_neg hfront]
      refine ⟨getText_eq_some_iff.mpr ⟨before ++ ['"'], after, by simp, ?_, ?_⟩, by omega, by omega⟩
      · rw [byteLen_append, hquote, hstart]
      · omega
  · have hfalse : (raw.head? == some '"') = false := beq_eq_false_iff_ne.mpr hquoted
    dsimp only
    rw [hfalse, if_neg Bool.false_ne_true, if_neg hquoted, if_neg fun h => Bool.false_ne_true h.1]
    exact ⟨hraw, le_rfl, le_rfl⟩

theorem containsLineBreak_append (front back : Str) :
    containsLineBreak (front ++ '\\' :: 'n' :: back) = true := by
  induction front with
  | nil => rfl
  | cons c front ih =>
    rw [List.cons_append]
    unfold containsLineBreak
    split
    · rfl
    · next heq =>
      obtain ⟨-, rfl⟩ := List.cons.inj heq
      exact ih
    · next heq => exact absurd heq (by simp)

/-- A text that is not transformed is shown as it is spelled. -/
theorem readableText_of_untouched {text : Str} (hsection : text.contains '§' = false)
    (hbreak : containsLineBreak text = false)
    (hmarker : (text.any fun c => Transcode.isMarkerCodePoint c.toNat) = false) :
    readableText text = text := by
  refine Plain.readableText ⟨?_, ?_⟩
  · rintro front c low high back rfl
    rw [List.any_eq_false] at hmarker
    exact Bool.not_eq_true _ ▸ hmarker c (by simp)
  · rintro front a b back rfl (⟨rfl, -⟩ | ⟨rfl, rfl⟩)
    · rw [List.contains_eq_mem, decide_eq_false_iff_not] at hsection
      exact hsection (by simp)
    · rw [containsLineBreak_append] at hbreak
      cases hbreak

/-- What the record of an entry says about its value. -/
structure Spelled (entry : EditorLocalisationEntry) (raw : Str) : Prop where
  spelling : getText entry.source entry.record.valueRange.start entry.record.valueRange.stop =
    some raw
  value : entry.value = readableText (unquotedValue raw)
  plain : entry.record.readable = none → Plain (unquotedValue raw)

theorem readable_entryValue {language : Str} {key value : TextRange}
    (hfull : (entryValue source language key value).fullValueAvailable = true) :
    (entryValue source language key value).readable = none ∧
        readableText (unquotedValue (sourceText source value)) =
          unquotedValue (sourceText source value) ∨
      (entryValue source language key value).readable =
        some (readableText (unquotedValue (sourceText source value))) := by
  have hreliable : unreliableEncodedText (unquotedValue (sourceText source value)) = false := by
    unfold entryValue at hfull
    dsimp only at hfull
    rwa [Bool.not_eq_true'] at hfull
  unfold entryValue
  dsimp only
  rw [hreliable, Bool.false_or, if_neg Bool.false_ne_true]
  by_cases htransformed : (((unquotedValue (sourceText source value)).contains '§' ||
      containsLineBreak (unquotedValue (sourceText source value))) ||
        (unquotedValue (sourceText source value)).any fun c =>
          Transcode.isMarkerCodePoint c.toNat) = true
  · rw [if_pos htransformed]
    by_cases hsame : readableText (unquotedValue (sourceText source value)) =
      unquotedValue (sourceText source value)
    · exact .inl ⟨Option.filter_some_neg (by simpa [readableText] using hsame), hsame⟩
    · exact .inr (Option.filter_some_pos (by simpa [readableText] using hsame))
  · rw [if_neg htransformed]
    rw [Bool.not_eq_true, Bool.or_eq_false_iff, Bool.or_eq_false_iff] at htransformed
    exact .inl ⟨rfl, readableText_of_untouched htransformed.1.1 htransformed.1.2 htransformed.2⟩

/-- The unquoted value stands where the record says. -/
theorem sourceText_readableRange {language : Str} {key value : TextRange}
    (hfits : value.stop ≤ u32Max) (hraw : getText source value.start value.stop = some raw) :
    sourceText source (entryValue source language key value).readableRange = unquotedValue raw := by
  have hsource : sourceText source value = raw := by unfold sourceText; rw [hraw]; rfl
  obtain ⟨before, after, rfl, hstart, hstop⟩ := getText_eq_some_iff.mp hraw
  have hquote : byteLen ['"'] = 1 := rfl
  -- what stands before and behind the value in its spelling
  obtain ⟨front, back, hsplit, hfront⟩ : ∃ front back, raw = front ++ (unquotedValue raw ++ back) ∧
      byteLen front = if raw.head? = some '"' then 1 else 0 := by
    by_cases hquoted : raw.head? = some '"'
    · obtain ⟨rest, hrest⟩ : ∃ rest, raw = '"' :: rest := by
        cases hcases : raw with
        | nil => rw [hcases] at hquoted; cases hquoted
        | cons c rest => exact ⟨rest, by rw [hcases] at hquoted; rw [Option.some.inj hquoted]⟩
      rw [if_pos hquoted, hrest, unquotedValue_quoted]
      split_ifs with hclosed
      · obtain ⟨middle, rfl⟩ := List.getLast?_eq_some_iff.mp hclosed
        exact ⟨['"'], ['"'], by rw [List.dropLast_concat]; rfl, rfl⟩
      · exact ⟨['"'], [], by rw [List.append_nil]; rfl, rfl⟩
    · rw [if_neg hquoted]
      obtain ⟨back, hback⟩ := unquotedValue_front raw
      unfold innerText at hback
      rw [if_neg hquoted] at hback
      exact ⟨[], back, hback.symm, rfl⟩
  have hlength : byteLen raw = byteLen front + (byteLen (unquotedValue raw) + byteLen back) := by
    conv_lhs => rw [hsplit, byteLen_append, byteLen_append]
  have hsmall : asU32 (byteLen (unquotedValue raw)) = byteLen (unquotedValue raw) := by
    unfold asU32
    unfold u32Max at hfits
    exact Nat.mod_eq_of_lt (by omega)
  have hrange : (entryValue (before ++ raw ++ after) language key value).readableRange =
      ⟨value.start + byteLen front, value.start + byteLen front + byteLen (unquotedValue raw),
        Nat.le_add_right _ _⟩ := by
    unfold entryValue TextRange.new
    dsimp only
    rw [hsource, hsmall, hfront, dif_pos (Nat.le_add_right _ _)]
    rfl
  have hget : getText (before ++ raw ++ after) (value.start + byteLen front)
      (value.start + byteLen front + byteLen (unquotedValue raw)) = some (unquotedValue raw) := by
    refine getText_eq_some_iff.mpr ⟨before ++ front, back ++ after,
      ?_, by rw [byteLen_append, hstart], rfl⟩
    conv_lhs => rw [hsplit]
    simp only [List.append_assoc]
  unfold sourceText
  rw [hrange, hget]
  rfl

theorem accepts_nil (table : CaseTable) (query : Str) :
    (LocalisationQuery.new table query).accepts table [] = false := by
  unfold LocalisationQuery.accepts LocalisationQuery.new
  dsimp only
  cases hwords : splitWhitespace query with
  | nil => rfl
  | cons word words =>
    have hmem : word ∈ splitWhitespace query := by rw [hwords]; exact List.mem_cons_self
    have hword : word ≠ [] := by
      have hfilter := (List.mem_filter.mp hmem).2
      rintro rfl
      cases hfilter
    have hlength : ¬ (table.toLowercase word).length ≤ 0 := fun hle =>
      CaseTable.toLowercase_ne_nil hword (List.length_eq_zero_iff.mp (Nat.le_zero.mp hle))
    rw [List.map_cons, if_neg (by simp), if_pos (show isAscii [] = true from rfl), List.all_cons,
      List.length_nil, decide_eq_false hlength]
    simp

/-- A value that is matched is spelled in the source. -/
theorem exists_spelled {table : CaseTable} {query : Str} (hcollected : entry.Collected)
    (hfull : entry.record.fullValueAvailable = true)
    (hmatches : (LocalisationQuery.new table query).accepts table entry.value = true) : ∃ raw,
      Spelled entry raw := by
  obtain ⟨language, key, value, hrecord⟩ := hcollected.record
  have hvalue : entry.record.valueRange = value := by rw [hrecord]; rfl
  have hfits : value.stop ≤ u32Max := hvalue ▸ hcollected.fits
  rw [hrecord] at hfull
  have hreadable := readable_entryValue hfull
  rw [← hrecord] at hreadable
  cases hraw : getText entry.source value.start value.stop with
  | none =>
    -- nothing is read where the range is none of the source
    have hsource : sourceText entry.source value = [] := by unfold sourceText; rw [hraw]; rfl
    have hempty : entry.value = [] := by
      unfold EditorLocalisationEntry.value
      rw [hsource] at hreadable
      obtain ⟨hnone, -⟩ | hsome := hreadable
      · have hrange : entry.record.readableRange = TextRange.empty value.start := by
          rw [hrecord]
          unfold entryValue
          dsimp only
          rw [hsource]
          unfold TextRange.new
          exact congrArg (Option.getD · value) (dif_pos le_rfl)
        rw [hnone, Option.getD_none, hrange]
        unfold sourceText
        cases hempty : getText entry.source value.start value.start with
        | none => exact congrArg (Option.getD · []) hempty
        | some text =>
          obtain ⟨before, after, -, -, hlength⟩ := getText_eq_some_iff.mp hempty
          obtain rfl : text = [] := byteLen_eq_zero_iff.mp (by omega)
          exact congrArg (Option.getD · []) hempty
      · rw [hsome]
        rfl
    rw [hempty, accepts_nil] at hmatches
    cases hmatches
  | some raw =>
    have hsource : sourceText entry.source value = raw := by unfold sourceText; rw [hraw]; rfl
    rw [hsource] at hreadable
    refine ⟨raw, by rw [hvalue, hraw], ?_, fun hnone => ?_⟩
    · unfold EditorLocalisationEntry.value
      obtain ⟨hnone, hplain⟩ | hsome := hreadable
      · rw [hnone, hplain, Option.getD_none, hrecord, sourceText_readableRange hfits hraw]
      · rw [hsome, Option.getD_some]
    · obtain ⟨-, hplain⟩ | hsome := hreadable
      · exact plain_of_readableText hplain
      · rw [hnone] at hsome
        cases hsome

end Values

/-! ## Where matches are located -/

/-- The entry has a location for the first word of the query. -/
def Located (table : CaseTable) (entry : EditorLocalisationEntry) (query : Str) : Prop :=
  ∃ word location, firstWord table query = some word ∧ matchLocation table entry query =
    some location ∧ Locates table entry word location

/-- The value is ASCII and shown as it is spelled, or the first word is in it with each character
folded on its own. -/
def Findable (table : CaseTable) (entry : EditorLocalisationEntry) (query : Str) : Prop :=
  let raw := innerText (sourceText entry.source entry.record.valueRange)
  entry.record.readable = none ∧ isAscii raw = true ∨
    ∃ word, firstWord table query = some word ∧ word <:+: table.lowerEach (readableText raw)

section Locations

variable {table : CaseTable} {entry : EditorLocalisationEntry} {query raw word : Str} {source : Str}
    {range : TextRange}
  {start stop : Nat}

theorem isAscii_iff {text : Str} : isAscii text = true ↔ ∀ c ∈ text, c.toNat < 0x80 := by
  unfold isAscii
  simp only [List.all_eq_true, decide_eq_true_eq]

/-- The first word of a query that matches, as far as ASCII values tell. -/
theorem exists_firstWord {value : Str}
    (h : (LocalisationQuery.new table query).accepts table value = true) :
    ∃ word, firstWord table query = some word ∧ word ≠ [] ∧
      (isAscii value = true → isAscii word = true ∧ word.length ≤ value.length ∧
        hasWindow value word = true) := by
  unfold LocalisationQuery.accepts LocalisationQuery.new at h
  unfold firstWord
  dsimp only at h
  cases hwords : splitWhitespace query with
  | nil =>
    rw [hwords, List.map_nil, if_pos (by rfl)] at h
    cases h
  | cons word words =>
    have hmem : word ∈ splitWhitespace query := by rw [hwords]; exact List.mem_cons_self
    have hword : word ≠ [] := by
      have hfilter := (List.mem_filter.mp hmem).2
      rintro rfl
      cases hfilter
    refine ⟨table.toLowercase word, rfl, CaseTable.toLowercase_ne_nil hword, fun hascii => ?_⟩
    rw [hwords, List.map_cons, if_neg (by simp), if_pos hascii, List.all_cons, Bool.and_eq_true,
      Bool.and_eq_true, Bool.and_eq_true, decide_eq_true_eq] at h
    exact ⟨h.1.1.1, h.1.1.2, h.1.2⟩

theorem toAsciiLowercase_word (hword : firstWord table query = some word)
    (hascii : isAscii word = true) : toAsciiLowercase word = word := by
  unfold firstWord at hword
  obtain ⟨spelled, -, rfl⟩ := Option.map_eq_some_iff.mp hword
  rw [isAscii_iff] at hascii
  exact (List.map_congr_left fun c hc => CaseTable.toLower_of_mem_toLowercase hc
    (hascii c hc)).trans (List.map_id _)

theorem tryRange (hle : start ≤ stop) (hfits : stop ≤ u32Max) : ∃ range : TextRange,
    range.start = start ∧ range.stop = stop ∧ tryU32 start = some start ∧ tryU32 stop = some stop ∧
    TextRange.new start stop = some range :=
  ⟨⟨start, stop, hle⟩, rfl, rfl, tryU32_eq_some_iff.mpr ⟨hle.trans hfits, rfl⟩,
    tryU32_eq_some_iff.mpr ⟨hfits, rfl⟩, dif_pos hle⟩

variable (table) in
/-- A word that an ASCII value has in another case is found where the value spells it. -/
theorem asciiRange_eq {value : Str} (hget : getText source start stop = some raw)
    (hfits : stop ≤ u32Max)
    (hfront : value <+: raw) (hplain : Plain value) (hascii : isAscii raw = true)
    (hlower : toAsciiLowercase word = word) (hlength : word.length ≤ value.length)
    (hwindow : hasWindow value word = true) :
    ∃ range, asciiRange word raw start = some range ∧ start ≤ range.start ∧ range.stop ≤ stop ∧
      ∃ text, getText source range.start range.stop = some text ∧
      word <:+: table.lowerEach (readableText text) := by
  obtain ⟨rest, rfl⟩ := hfront
  obtain ⟨before, after, rfl, rfl, rfl⟩ := getText_eq_some_iff.mp hget
  -- the window is an occurrence in the small letters of the value
  obtain ⟨i, hi, hsame⟩ := List.any_eq_true.mp hwindow
  have hocc : Substrings.OccursAt word (toAsciiLowercase (value ++ rest)) i := by
    have hle : i + word.length ≤ value.length := by have := List.mem_range.mp hi; omega
    have hspelled : toAsciiLowercase ((value.drop i).take word.length) = toAsciiLowercase word :=
      sameName_iff.mp hsame
    unfold toAsciiLowercase at hspelled hlower ⊢
    refine ⟨?_, ?_⟩
    · rw [List.length_map, List.length_append]
      omega
    · rw [List.map_append, List.drop_append_of_le_length (by rw [List.length_map]; omega),
        List.take_append_of_le_length (by rw [List.length_drop, List.length_map]; omega),
          ← List.map_drop,
        ← List.map_take, hspelled, hlower]
  obtain ⟨j, hj⟩ : ∃ j, Substrings.find word (toAsciiLowercase (value ++ rest)) = some j := by
    cases hfind : Substrings.find word (toAsciiLowercase (value ++ rest)) with
    | none => exact absurd hocc (Substrings.find_eq_none_iff.mp hfind i)
    | some j => exact ⟨j, rfl⟩
  obtain ⟨hoccj, hfirst⟩ := Substrings.find_eq_some_iff.mp hj
  have hji : j ≤ i := Nat.not_lt.mp fun hlt => hfirst i hlt hocc
  have hle : j + word.length ≤ value.length := by have := List.mem_range.mp hi; omega
  have hsize : ∀ text, byteLen (toAsciiLowercase text) = byteLen text := fun text => by
    unfold byteLen toAsciiLowercase
    rw [AsciiCase.encode_map_toLower, List.length_map]
  -- the text that spells the word
  obtain ⟨text, htext⟩ : ∃ text, (value.drop j).take word.length = text := ⟨_, rfl⟩
  have hvalue : value = value.take j ++ (text ++ value.drop (j + word.length)) := by
    rw [← htext, ← List.drop_drop, List.take_append_drop, List.take_append_drop]
  have hwordtext : toAsciiLowercase text = word := by
    have hword := hoccj.2
    unfold toAsciiLowercase at hword ⊢
    rwa [List.map_append, List.drop_append_of_le_length (by rw [List.length_map]; omega),
      List.take_append_of_le_length (by rw [List.length_drop, List.length_map]; omega),
        ← List.map_drop,
      ← List.map_take, htext] at hword
  have hoffset : findText word (toAsciiLowercase (value ++ rest)) =
    some (byteLen (value.take j)) := by
    unfold findText
    rw [hj, Option.map_some, Option.some.injEq, toAsciiLowercase, ← List.map_take,
      ← toAsciiLowercase, hsize, List.take_append_of_le_length (by omega)]
  have hwordlen : byteLen word = byteLen text := by rw [← hwordtext, hsize]
  have htotal : byteLen (value ++ rest) =
      byteLen (value.take j) + byteLen text + byteLen (value.drop (j + word.length)) +
        byteLen rest := by
    conv_lhs => rw [hvalue]
    simp only [byteLen_append, Nat.add_assoc]
  obtain ⟨range, hstart, hstop, htry, htry', hnew⟩ := tryRange
    (Nat.le_add_right (byteLen before + byteLen (value.take j)) (byteLen word)) (by omega)
  refine ⟨range, ?_, by omega, by omega, text, ?_, ?_⟩
  · unfold asciiRange
    rw [hoffset]
    dsimp only [Option.bind_eq_bind, Option.bind_some]
    rw [htry, htry']
    exact hnew
  · rw [hstart, hstop]
    refine getText_eq_some_iff.mpr ⟨before ++ value.take j,
      value.drop (j + word.length) ++ rest ++ after, ?_, ?_, ?_⟩
    · conv_lhs => rw [hvalue]
      simp only [List.append_assoc]
    · rw [byteLen_append]
    · rw [hwordlen]
  · have hpart : text <:+: value :=
      ⟨value.take j, value.drop (j + word.length), by rw [List.append_assoc, ← hvalue]⟩
    have hasciitext : ∀ c ∈ text, c.toNat < 0x80 := fun c hc =>
      isAscii_iff.mp hascii c (List.mem_append_left _ (hpart.mem hc))
    rw [(hplain.of_part hpart).readableText, CaseTable.lowerEach_ascii hasciitext]
    rw [← hwordtext]
    exact List.infix_rfl

/-- A word is found if it is in the readable form with each character folded on its own. -/
theorem unitRange_eq (hget : getText source start stop = some raw) (hfits : stop ≤ u32Max)
    (hword : word ≠ []) (hinside : word <:+: table.lowerEach (readableText raw)) :
    ∃ range, unitRange table word (shownUnits (decodedUnits start 0 raw)) = some range ∧
      start ≤ range.start ∧
      range.stop ≤ stop ∧
        ∃ text, getText source range.start range.stop = some text ∧
        word <:+: table.lowerEach (readableText text) := by
  obtain ⟨before, after, rfl, rfl, rfl⟩ := getText_eq_some_iff.mp hget
  obtain ⟨i, hi⟩ : ∃ i, Substrings.find word (table.lowerEach (readableText raw)) = some i := by
    have hsome := Substrings.isSome_find_iff.mpr hinside
    exact Option.isSome_iff_exists.mp hsome
  obtain ⟨front, middle, back, first, last, rfl, hfound, hstart, hstop, hpositions⟩ :=
    exists_found (byteLen before) hword (Substrings.find_eq_some_iff.mp hi).1
  obtain ⟨hfirst, hlast⟩ := hpositions
  have hlength : byteLen (front ++ (middle ++ back)) = byteLen (front ++ middle) +
    byteLen back := by
    simp only [byteLen_append, Nat.add_assoc]
  have hmiddle : byteLen (front ++ middle) = byteLen front + byteLen middle := byteLen_append _ _
  have hfolded : Traced.text (unitRun table)
    (shownUnits (decodedUnits (byteLen before) 0 (front ++ (middle ++ back)))) =
      table.lowerEach (readableText (front ++ (middle ++ back))) := by rw [text_unitRun,
        ← readableText_eq]
  obtain ⟨range, hrange, hrange', htry, htry', hnew⟩ :=
    tryRange (by omega : byteLen before + byteLen front ≤
      byteLen before + byteLen (front ++ middle)) (by omega)
  refine ⟨range, ?_, by omega, by omega, middle, ?_, hfound⟩
  · unfold unitRange findText
    dsimp only
    rw [hfolded, hi]
    dsimp only [Option.bind_eq_bind, Option.bind_some, Option.map_some]
    rw [hfirst, hlast]
    dsimp only [DecodedUnit.span, Option.bind_some]
    rw [hstart, hstop, htry, htry']
    exact hnew
  · rw [hrange, hrange']
    refine getText_eq_some_iff.mpr ⟨before ++ front,
      back ++ after, by simp, by rw [byteLen_append], by omega⟩

theorem occurs_of_unitRange {units : List DecodedUnit}
    (h : unitRange table word units = some range) :
    word <:+: table.lowerEach (units.map DecodedUnit.character) := by
  unfold unitRange at h
  obtain ⟨offset, hoffset, -⟩ := Option.bind_eq_some_iff.mp h
  unfold findText at hoffset
  obtain ⟨i, hi, -⟩ := Option.map_eq_some_iff.mp hoffset
  rw [← text_unitRun]
  exact Substrings.exists_occursAt_iff.mp ⟨i, (Substrings.find_eq_some_iff.mp hi).1⟩

theorem matchLocation_eq (hspelled : Spelled entry raw) (hvalue : unquotedValue raw ≠ [])
    (hword : firstWord table query = some word) : matchLocation table entry query =
      (if entry.record.readable.isNone = true ∧ isAscii (innerText raw) = true then
        asciiRange word (innerText raw) (innerRange raw entry.record.valueRange).1
      else
        unitRange table word
          (shownUnits (decodedUnits (innerRange raw entry.record.valueRange).1 0
          (innerText raw)))).map
        fun range => { entry.location with range := range } := by
  unfold matchLocation
  dsimp only
  rw [hspelled.spelling]
  dsimp only [Option.bind_eq_bind, Option.bind_some]
  rw [(getText_innerRange hspelled.spelling hvalue).1]
  dsimp only [Option.bind_some]
  rw [hword]
  dsimp only [Option.bind_some]
  split_ifs
  · exact Option.map_eq_bind.symm
  · exact Option.map_eq_bind.symm

/-- A match of a collected entry is located exactly if it is ASCII as it is shown, or its first word
is in the value with each character folded on its own. -/
theorem located_iff (table : CaseTable) (entry : EditorLocalisationEntry) (query : Str)
    (hcollected : entry.Collected) (hfull : entry.record.fullValueAvailable = true)
    (hmatches : (LocalisationQuery.new table query).accepts table entry.value = true) :
    Located table entry query ↔ Findable table entry query := by
  obtain ⟨raw, hspelled⟩ := exists_spelled hcollected hfull hmatches
  obtain ⟨word, hword, hne, hwindow⟩ := exists_firstWord hmatches
  have hsource : sourceText entry.source entry.record.valueRange = raw := by
    unfold sourceText
    rw [hspelled.spelling]
    rfl
  have hvalue : unquotedValue raw ≠ [] := fun hnil => by
    rw [hspelled.value, hnil] at hmatches
    rw [show readableText [] = [] from rfl, accepts_nil] at hmatches
    cases hmatches
  obtain ⟨hinner, hstart, hstop⟩ := getText_innerRange hspelled.spelling hvalue
  have hfits := hstop.trans hcollected.fits
  have hlocation := matchLocation_eq hspelled hvalue hword
  unfold Located Findable
  dsimp only
  rw [hsource, hlocation]
  by_cases hfast : entry.record.readable.isNone = true ∧ isAscii (innerText raw) = true
  · rw [if_pos hfast]
    have hplain := hspelled.plain (Option.isNone_iff_eq_none.mp hfast.1)
    refine iff_of_true ?_ (.inl ⟨Option.isNone_iff_eq_none.mp hfast.1, hfast.2⟩)
    have hfront := unquotedValue_front raw
    have hascii : isAscii (unquotedValue raw) = true :=
      isAscii_iff.mpr fun c hc => isAscii_iff.mp hfast.2 c (hfront.subset hc)
    rw [hspelled.value, hplain.readableText] at hwindow
    obtain ⟨hwordascii, hlength, hhas⟩ := hwindow hascii
    obtain ⟨range, hrange, hfirst, hlast, hshows⟩ :=
      asciiRange_eq table hinner hfits hfront hplain hfast.2
      (toAsciiLowercase_word hword hwordascii) hlength hhas
    exact ⟨word, _, hword, by rw [hrange]; rfl, ⟨hstart.trans hfirst, hlast.trans hstop⟩, hshows⟩
  · rw [if_neg hfast]
    constructor
    · rintro ⟨word', location, hword', hsome, -⟩
      obtain rfl : word' = word := Option.some.inj (hword'.symm.trans hword)
      obtain ⟨range, hrange, -⟩ := Option.map_eq_some_iff.mp hsome
      have hinside := occurs_of_unitRange hrange
      rw [← readableText_eq] at hinside
      exact .inr ⟨word', hword, hinside⟩
    · rintro (⟨hnone, hascii⟩ | ⟨word', hword', hinside⟩)
      · exact absurd ⟨Option.isNone_iff_eq_none.mpr hnone, hascii⟩ hfast
      · obtain rfl : word' = word := Option.some.inj (hword'.symm.trans hword)
        obtain ⟨range, hrange, hfirst, hlast, hshows⟩ := unitRange_eq hinner hfits hne hinside
        exact ⟨word', _, hword, by rw [hrange]; rfl, ⟨hstart.trans hfirst, hlast.trans hstop⟩,
          hshows⟩

end Locations

/-- The entry `street` of an English file. -/
def streetEntry (value : Str) : EditorLocalisationEntry where
  source := "l_english:\n street:0 \"".toList ++ value ++ "\"\n".toList
  document := none
  file := some 0
  path := some "localisation/street_l_english.yml".toList
  record := entryValue ("l_english:\n street:0 \"".toList ++ value ++ "\"\n".toList)
    "english".toList ⟨12, 18, by decide⟩ ⟨21, 23 + byteLen value, by omega⟩

theorem located_street : Located greekCase (streetEntry "ΟΔΟΣ.Α".toList) "οδοσ".toList ↔
    Findable greekCase (streetEntry "ΟΔΟΣ.Α".toList) "οδοσ".toList :=
  located_iff greekCase (streetEntry "ΟΔΟΣ.Α".toList) "οδοσ".toList ⟨⟨_, _, _, rfl⟩, by decide⟩
    (by decide +kernel) (by decide +kernel)

/-- A word that is a value is not located in it. -/
theorem not_located_street :
    (LocalisationQuery.new greekCase "ΟΔΟΣ".toList).accepts greekCase
      (streetEntry "ΟΔΟΣ".toList).value = true ∧
      (streetEntry "ΟΔΟΣ".toList).record.fullValueAvailable = true ∧
        ¬ Located greekCase (streetEntry "ΟΔΟΣ".toList) "ΟΔΟΣ".toList := by
  refine ⟨by decide +kernel, by decide +kernel, ?_⟩
  rintro ⟨word, location, -, hlocation, -⟩
  have hnone : (matchLocation greekCase (streetEntry "ΟΔΟΣ".toList) "ΟΔΟΣ".toList).isNone =
    true := by decide +kernel
  rw [hlocation] at hnone
  cases hnone

end ParadoxCode.Ide.LocalisationSearch
