import Mathlib.Logic.Relation
import ParadoxCode.Ide.LocalisationFile
import ParadoxCode.Lib.AsciiCase
import ParadoxCode.Lib.CaseTable
import ParadoxCode.Lib.Substrings
import ParadoxCode.Lib.Traced

/-!
# The hits of a text search

`text_hits` of `search.rs`: a source is folded with a table from the bytes of the folded text to the
source, and the disjoint places of the folded query are mapped back. Every occurrence of a query is
overlapped by a hit (`findsAll_textHits`) where the query, which is folded as a whole, is the query
folded character by character, as the source is. The case of characters is a parameter. Nothing is
cancelled.
-/

namespace ParadoxCode.Ide

open Index (decodeValue)
open LocalisationSearch (unreliableEncodedText recoverUnreliableText)

/-! ## Strings -/

/-- `str::find`. -/
def findText (word text : Str) : Option Nat := (Substrings.find word text).map fun i =>
    byteLen (text.take i)

/-- The offsets of `str::match_indices`. -/
def matchIndices (word text : Str) : List Nat :=
  (Substrings.disjoint word text).map fun i => byteLen (text.take i)

/-- `&source[start..stop]`. -/
def slice (source : Str) (start stop : Nat) : Str := (getText source start stop).getD []

/-- Where the line starts that a front of the source ends in. -/
def lineStart (source : Str) (offset : Nat) : Nat :=
  byteLen ((slice source 0 offset).reverse.dropWhile (· ≠ '\n')).reverse

/-- Where the line ends from an offset on. -/
def lineEnd (source : Str) (offset : Nat) : Nat :=
  offset + byteLen ((slice source offset (byteLen source)).takeWhile (· ≠ '\n'))

/-- The last character boundary up to an offset. -/
def floorBoundary (text : Str) : Nat → Nat
  | 0 => 0
  | offset + 1 => if isCharBoundary text (offset + 1) = true then offset + 1 else
      floorBoundary text offset

/-! ## The folded text -/

/-- Where the loop over the characters of a source is. -/
structure QuoteState where
  quoted : Bool := false
  comment : Bool := false
  escaped : Bool := false
  deriving DecidableEq

/-- What a character is read in. -/
def QuoteState.enter (state : QuoteState) (c : Char) : QuoteState :=
  let comment := !(c == '\n') && state.comment
  let comment := comment || !state.quoted && c == '#'
  { state with
    comment := comment
    quoted := (!comment && c == '"' && !state.escaped) ^^ state.quoted }

def QuoteState.leave (state : QuoteState) (c : Char) : QuoteState :=
  { state with escaped := c == '\\' && !state.escaped }

/-- A quoted marker is met, which takes the two characters behind it as far as they are there. -/
def hasTriple (state : QuoteState) : Str → Bool
  | [] => false
  | c :: rest =>
    (state.enter c).quoted && Transcode.isMarkerCodePoint c.toNat ||
      hasTriple ((state.enter c).leave c) rest

/-- Folded characters with the part of the source that they come from. -/
structure FoldUnit where
  run : Str
  start : Nat
  stop : Nat
  deriving DecidableEq

def FoldUnit.span (unit : FoldUnit) : Nat × Nat := (unit.start, unit.stop)

section Fold

variable (table : CaseTable) (caseSensitive unreliable : Bool)

/-- A character of the source as it is searched. -/
def foldChar (c : Char) : Str := if caseSensitive = true then [c] else table.lower c

/-- A text as it is searched for. -/
def foldText (text : Str) : Str := if caseSensitive = true then text else table.toLowercase text

/-- The run of an escape triple. -/
def tripleUnit (offset : Nat) (triple : Str) : FoldUnit where
  run := foldText table caseSensitive (if unreliable = true then [Char.ofNat 0xFFFC] else
    decodeValue triple)
  start := offset
  stop := offset + byteLen triple

/-- The loop that folds a source; what is skipped belongs to the triple before. -/
def foldUnits : Nat → Nat → QuoteState → Str → List FoldUnit
  | _, _, _, [] => []
  | offset, skip + 1, state, c :: rest => foldUnits (offset + c.utf8Size) skip state rest
  | offset, 0, state, c :: rest =>
    let state := state.enter c
    if state.quoted = true ∧ Transcode.isMarkerCodePoint c.toNat = true then
      tripleUnit table caseSensitive unreliable offset (c :: rest.take 2) ::
        foldUnits (offset + c.utf8Size) 2 (state.leave c) rest
    else
      ⟨foldChar table caseSensitive c, offset, offset + c.utf8Size⟩ ::
        foldUnits (offset + c.utf8Size) 0 (state.leave c) rest

/-- The source is searched as it is, or with small ASCII letters. -/
def identityMapping (source : Str) : Bool :=
  !(source.any fun c => Transcode.isMarkerCodePoint c.toNat) &&
    (caseSensitive || source.all fun c => decide (c.toNat < 0x80))

def folded (source : Str) : Str :=
  if identityMapping caseSensitive source = true then
    if caseSensitive = true then source else toAsciiLowercase source
  else Traced.text FoldUnit.run (foldUnits table caseSensitive (unreliableEncodedText source)
    0 0 {} source)

/-- The part of the source that is reported for a match in the folded text. -/
def matchSpan (source query : Str) (start : Nat) : Option (Nat × Nat) :=
  let stop := start + byteLen query
  if identityMapping caseSensitive source = true then some (start, stop)
  else
    let mapping := Traced.origins FoldUnit.run FoldUnit.span
      (foldUnits table caseSensitive (unreliableEncodedText source) 0 0 {} source)
    match mapping[start]?, mapping[stop - 1]? with
    | some (start, _), some (_, stop) => some (start, stop)
    | _, _ => none

end Fold

/-! ## Hits -/

/-- `EditorTextHit`. -/
structure EditorTextHit (Physical Document : Type) where
  root : Nat
  path : Str
  physicalPath : Physical
  document : Option Document
  version : Option Int
  text : Str
  range : TextRange
  preview : Str
  context : Str

/-- `EditorTextResults`. -/
structure EditorTextResults (Physical Document : Type) where
  generation : Nat
  hits : List (EditorTextHit Physical Document) := []
  limitations : List Str := []

/-- Where a source comes from. -/
structure TextOrigin (Physical Document : Type) where
  root : Nat
  path : Str
  physicalPath : Physical
  document : Option Document
  version : Option Int

def maxTextHits : Nat := 10000

def textBudgetNote : Str := "Text result budget reached (10000 locations); narrow the query".toList

def unreliableTextNote (path : Str) : Str :=
  path ++ ": replacement characters alongside encoded text prevent reliable decoded matching".toList

variable {Physical Document : Type} (table : CaseTable) (caseSensitive : Bool)

/-- A part of a source as it is shown. -/
def readablePart (source : Str) (start stop : Nat) : Str :=
  if unreliableEncodedText source = true then recoverUnreliableText (slice source start stop)
  else decodeValue (slice source start stop)

/-- A line as it is shown: from some characters before the match on. -/
def previewOf (readable previewQuery : Str) : Str :=
  let boundary := min ((findText previewQuery (table.toLowercase readable)).getD 0)
    (byteLen readable)
  let matchOffset := (slice readable 0 (floorBoundary readable boundary)).length
  (readable.drop (matchOffset - 120)).take 1000

/-- One more line before and behind. -/
def widen (source : Str) (context : Nat × Nat) : Nat × Nat :=
  (lineStart source (context.1 - 1),
    if byteLen source ≤ context.2 then byteLen source else lineEnd source (context.2 + 1))

def contextOf (source : Str) (start stop : Nat) : Str :=
  let context := widen source (widen source (start, stop))
  (readablePart source context.1 context.2).take 2000

/-- The hit at a part of a source. -/
def textHit (origin : TextOrigin Physical Document) (source previewQuery : Str) (start stop : Nat) :
    EditorTextHit Physical Document where
  root := origin.root
  path := origin.path
  physicalPath := origin.physicalPath
  document := origin.document
  version := origin.version
  text := source
  range := (TextRange.new start stop).getD (TextRange.empty start)
  preview := previewOf table (readablePart source (lineStart source start) (lineEnd source stop))
    previewQuery
  context := contextOf source (lineStart source start) (lineEnd source stop)

/-- The hit for a match, where its part of the source is found and fits `u32`. -/
def hitAt? (origin : TextOrigin Physical Document) (source query previewQuery : Str) (start : Nat) :
    Option (EditorTextHit Physical Document) := do
  let (sourceStart, sourceStop) ← matchSpan table caseSensitive source query start
  let start ← tryU32 sourceStart
  let stop ← tryU32 sourceStop
  some (textHit table origin source previewQuery start stop)

/-- The limitations when the budget is reached. -/
def noteBudget (limitations : List Str) : List Str :=
  if (limitations.any fun line => "Text result budget".toList.isPrefixOf line) =
    true then limitations
  else limitations ++ [textBudgetNote]

/-- The loop over the matches. -/
def hitLoop (hitAt : Nat → Option (EditorTextHit Physical Document)) :
    List Nat → EditorTextResults Physical Document → EditorTextResults Physical Document
  | [], results => results
  | start :: starts, results =>
    if maxTextHits ≤ results.hits.length then
      { results with limitations := noteBudget results.limitations }
    else hitLoop hitAt starts { results with hits := results.hits ++ (hitAt start).toList }

/-- `text_hits`. -/
def textHits (results : EditorTextResults Physical Document) (origin : TextOrigin Physical Document)
    (source query : Str) : EditorTextResults Physical Document :=
  let results :=
    if unreliableEncodedText source = true then
      { results with limitations := results.limitations ++ [unreliableTextNote origin.path] }
    else results
  let query := foldText table caseSensitive query
  if query.isEmpty = true then results
  else
    hitLoop (hitAt? table caseSensitive origin source query (table.toLowercase query))
      (matchIndices query (folded table caseSensitive source)) results

/-! ## Sources without escape triples -/

/-- A unit for each character. -/
def charUnits (fold : Char → Str) (offset : Nat) : Str → List FoldUnit
  | [] => []
  | c :: rest => ⟨fold c, offset, offset + c.utf8Size⟩ :: charUnits fold (offset + c.utf8Size) rest

section Plain

variable {table} {caseSensitive} {source query : Str} {index i : Nat}

/-- Without escape triples the loop folds characters. -/
theorem foldUnits_plain {unreliable : Bool} (source : Str) : ∀ {offset : Nat} {state : QuoteState},
    hasTriple state source = false →
      foldUnits table caseSensitive unreliable offset 0 state source =
        charUnits (foldChar table caseSensitive) offset source := by
  induction source with
  | nil => exact fun _ => rfl
  | cons c rest ih =>
    intro offset state h
    rw [hasTriple, Bool.or_eq_false_iff] at h
    obtain ⟨hmarker, hrest⟩ := h
    rw [← Bool.not_eq_true, Bool.and_eq_true] at hmarker
    unfold foldUnits
    dsimp only
    rw [if_neg hmarker, ih hrest, charUnits]

theorem length_charUnits (fold : Char → Str) (source : Str) : ∀ offset,
    (charUnits fold offset source).length = source.length := by
  induction source with
  | nil => exact fun _ => rfl
  | cons c rest ih =>
    intro offset
    rw [charUnits, List.length_cons, List.length_cons, ih]

theorem take_charUnits (fold : Char → Str) (source : Str) : ∀ offset index,
    (charUnits fold offset source).take index = charUnits fold offset (source.take index) := by
  induction source with
  | nil =>
    intro offset index
    rw [charUnits, List.take_nil, List.take_nil, charUnits]
  | cons c rest ih =>
    intro offset index
    cases index with
    | zero => rfl
    | succ index => rw [charUnits, List.take_succ_cons, List.take_succ_cons, charUnits, ih]

theorem text_charUnits (fold : Char → Str) (source : Str) : ∀ offset,
    Traced.text FoldUnit.run (charUnits fold offset source) = Traced.text fold source := by
  unfold Traced.text
  induction source with
  | nil => exact fun _ => rfl
  | cons c rest ih =>
    intro offset
    rw [charUnits, List.flatMap_cons, List.flatMap_cons, ih]

theorem span_charUnits (fold : Char → Str) (source : Str) :
    ∀ {offset index : Nat} {unit : FoldUnit},
    (charUnits fold offset source)[index]? = some unit →
      unit.span = (offset + byteLen (source.take index),
        offset + byteLen (source.take (index + 1))) := by
  induction source with
  | nil => exact fun {_ _ _} h => by simp [charUnits] at h
  | cons c rest ih =>
    intro offset index unit h
    rw [charUnits] at h
    cases index with
    | zero =>
      obtain rfl := Option.some.inj h
      rw [List.take_succ_cons, List.take_zero, List.take_zero, byteLen_cons]
      rfl
    | succ index =>
      rw [List.getElem?_cons_succ] at h
      rw [ih h, List.take_succ_cons, List.take_succ_cons, byteLen_cons, byteLen_cons, Nat.add_assoc,
        Nat.add_assoc]

/-- The units hold the characters that the runs of the source's characters hold. -/
theorem holds_charUnits {fold : Char → Str} (offset : Nat) (h : Traced.Holds fold source index i) :
    Traced.Holds FoldUnit.run (charUnits fold offset source) index i := by
  have hplace : ∀ k, Traced.place FoldUnit.run (charUnits fold offset source) k =
    Traced.place fold source k :=
    fun k => by
      unfold Traced.place
      rw [take_charUnits, text_charUnits]
  exact ⟨h.lt.trans_eq (length_charUnits fold source offset).symm,
    (hplace index).le.trans h.place_le, h.lt_place.trans_eq (hplace (index + 1)).symm⟩

theorem text_foldChar_sensitive : Traced.text (foldChar table true) source = source :=
  List.flatMap_singleton' source

theorem foldChar_ne_nil (c : Char) : foldChar table caseSensitive c ≠ [] := by
  unfold foldChar
  split_ifs
  · exact List.cons_ne_nil _ _
  · exact table.lower_ne_nil c

variable (table) in
/-- A source that is searched as it is has small letters of the same size. -/
theorem exists_letters_of_identity (h : identityMapping caseSensitive source = true) :
    ∃ letter : Char → Char, (∀ text, byteLen (text.map letter) = byteLen text) ∧
      (∀ c ∈ source, foldChar table caseSensitive c = [letter c]) ∧
        folded table caseSensitive source = source.map letter := by
  unfold folded
  rw [if_pos h]
  cases caseSensitive with
  | true => exact ⟨id, fun text => by rw [List.map_id], fun _ _ => rfl, (List.map_id _).symm⟩
  | false =>
    unfold identityMapping at h
    rw [Bool.and_eq_true, Bool.false_or, List.all_eq_true] at h
    refine ⟨Char.toLower, fun text => ?_, fun c hc => table.lower_ascii c
      (of_decide_eq_true (h.2 c hc)), rfl⟩
    unfold byteLen
    rw [AsciiCase.encode_map_toLower, List.length_map]

variable (table caseSensitive) in
theorem folded_plain (h : hasTriple {} source = false) :
    folded table caseSensitive source = Traced.text (foldChar table caseSensitive) source := by
  by_cases hidentity : identityMapping caseSensitive source = true
  · obtain ⟨letter, -, hletter, hfolded⟩ := exists_letters_of_identity table hidentity
    rw [hfolded, List.map_eq_flatMap]
    exact List.flatMap_congr fun c hc => (hletter c hc).symm
  · unfold folded
    rw [if_neg hidentity, foldUnits_plain source h, text_charUnits]

theorem byteLen_take_add {word text : Str} (h : Substrings.OccursAt word text i) :
    byteLen (text.take i) + byteLen word = byteLen (text.take (i + word.length)) := by
  rw [List.take_add, byteLen_append, h.2]

/-- Characters with runs of one character are held in their own places. -/
theorem Holds.eq_of_letter {fold : Char → Str} {letter : Char → Char}
    (hletter : ∀ c ∈ source, fold c = [letter c])
    (h : Traced.Holds fold source index i) : index = i := by
  have hplace : ∀ k ≤ source.length, Traced.place fold source k = k := fun k hk => by
    have htext : Traced.text fold (source.take k) = (source.take k).map letter := by
      unfold Traced.text
      rw [List.map_eq_flatMap]
      exact List.flatMap_congr fun c hc => hletter c (List.mem_of_mem_take hc)
    unfold Traced.place
    rw [htext, List.length_map, List.length_take_of_le hk]
  have hle := h.place_le
  have hlt := h.lt_place
  rw [hplace _ h.lt.le] at hle
  rw [hplace _ h.lt] at hlt
  omega

/-- A match is reported from the first character of the source that it reaches to the last one. -/
theorem matchSpan_plain (hplain : hasTriple {} source = false) (hquery : query ≠ [])
    (hocc : Substrings.OccursAt query (folded table caseSensitive source) i) :
    ∃ first last, Traced.Holds (foldChar table caseSensitive) source first i ∧
      Traced.Holds (foldChar table caseSensitive) source last (i + query.length - 1) ∧
        matchSpan table caseSensitive source query
          (byteLen ((folded table caseSensitive source).take i)) =
          some (byteLen (source.take first), byteLen (source.take (last + 1))) := by
  have hpos : 0 < query.length := List.length_pos_iff.mpr hquery
  have hfolded := folded_plain table caseSensitive hplain
  have hlength : i + query.length ≤ (Traced.text (foldChar table caseSensitive) source).length :=
    hfolded ▸ hocc.1
  obtain ⟨first, hfirst⟩ := Traced.exists_holds (by omega : i <
    (Traced.text (foldChar table caseSensitive) source).length)
  obtain ⟨last, hlast⟩ := Traced.exists_holds
    (by omega : i + query.length - 1 < (Traced.text (foldChar table caseSensitive) source).length)
  refine ⟨first, last, hfirst, hlast, ?_⟩
  unfold matchSpan
  dsimp only
  rw [byteLen_take_add hocc]
  by_cases hidentity : identityMapping caseSensitive source = true
  · obtain ⟨letter, hsize, hletter, hmap⟩ := exists_letters_of_identity table hidentity
    rw [if_pos hidentity, Holds.eq_of_letter hletter hfirst, Holds.eq_of_letter hletter hlast, hmap,
      ← List.map_take, ← List.map_take, hsize, hsize, Nat.sub_add_cancel (by omega)]
  · rw [if_neg hidentity, foldUnits_plain source hplain]
    have hunits := text_charUnits (foldChar table caseSensitive) source 0
    have hstart := Traced.origins_first FoldUnit.span (holds_charUnits 0 hfirst)
    have hstop := Traced.origins_last FoldUnit.span (holds_charUnits 0 hlast)
    rw [hunits, ← hfolded] at hstart hstop
    rw [Nat.sub_add_cancel (by omega)] at hstop
    have hstart' := span_charUnits (foldChar table caseSensitive) source
      (List.getElem?_eq_getElem (holds_charUnits 0 hfirst).lt)
    have hstop' := span_charUnits (foldChar table caseSensitive) source
      (List.getElem?_eq_getElem (holds_charUnits 0 hlast).lt)
    unfold byteLen
    rw [hstart, hstop, List.get_eq_getElem, List.get_eq_getElem, hstart', hstop']
    unfold byteLen
    simp only [Nat.zero_add]

end Plain

/-! ## What is reported -/

/-- The hits that a search has added. -/
def newHits (before after : EditorTextResults Physical Document) :
    List (EditorTextHit Physical Document) :=
  after.hits.drop before.hits.length

/-- Two places of a word overlap. -/
def Overlap (word : Str) (i j : Nat) : Prop := i < j + word.length ∧ j < i + word.length

/-- The occurrences that hang together with one by overlaps. -/
def cluster (word source : Str) (i : Nat) : Set Nat :=
  {j | Relation.ReflTransGen (fun a b => Substrings.OccursAt word source b ∧ Overlap word a b) i j}

/-- The hit overlaps the occurrence of a word at a place. -/
def EditorTextHit.Meets (hit : EditorTextHit Physical Document) (word source : Str)
    (i : Nat) : Prop :=
  hit.range.start < byteLen (source.take (i + word.length)) ∧
    byteLen (source.take i) < hit.range.stop

/-- A search misses no occurrence up to the budget, and reports ranges between characters. -/
structure FindsAll (caseSensitive : Bool) (source query : Str)
    (before after : EditorTextResults Physical Document) :
    Prop where
  overlapped : maxTextHits ≤ after.hits.length ∨ ∀ i, Substrings.OccursAt query source i →
    ∃ j ∈ cluster query source i, ∃ hit ∈ newHits before after, hit.Meets query source j
  boundaries : ∀ hit ∈ newHits before after, Boundary source hit.range.start ∧
    Boundary source hit.range.stop
  verbatim : caseSensitive = true → ∀ hit ∈ newHits before after,
    getText source hit.range.start hit.range.stop = some query

/-- A source without escape triples whose offsets fit `u32`. -/
structure Searchable (source : Str) : Prop where
  fits : byteLen source ≤ u32Max
  plain : hasTriple {} source = false

section Reports

variable {table} {caseSensitive} {source query : Str} {i : Nat}
    {results : EditorTextResults Physical Document}
  {origin : TextOrigin Physical Document}

/-- The loop reports the matches in order as far as the budget reaches. -/
theorem hits_hitLoop (hitAt : Nat → Option (EditorTextHit Physical Document)) (starts : List Nat) :
    ∀ results : EditorTextResults Physical Document, (hitLoop hitAt starts results).hits =
      results.hits ++ (starts.filterMap hitAt).take (maxTextHits - results.hits.length) := by
  induction starts with
  | nil =>
    intro results
    rw [hitLoop, List.filterMap_nil, List.take_nil, List.append_nil]
  | cons start starts ih =>
    intro results
    unfold hitLoop
    by_cases hbudget : maxTextHits ≤ results.hits.length
    · rw [if_pos hbudget, Nat.sub_eq_zero_of_le hbudget, List.take_zero, List.append_nil]
    · rw [if_neg hbudget, ih]
      cases hhit : hitAt start with
      | none =>
        rw [List.filterMap_cons_none hhit, Option.toList_none, List.append_nil]
      | some hit =>
        obtain ⟨left, hleft⟩ := Nat.exists_eq_add_of_lt (Nat.not_le.mp hbudget)
        rw [List.filterMap_cons_some hhit, Option.toList_some, List.append_assoc, hleft,
          List.length_append, List.length_singleton,
          show results.hits.length + left + 1 - results.hits.length = left + 1 by omega,
          show results.hits.length + left + 1 - (results.hits.length + 1) = left by omega,
            List.take_succ_cons]
        rfl

/-- The hits of all matches. -/
def matchHits (table : CaseTable) (caseSensitive : Bool) (origin : TextOrigin Physical Document)
    (source query : Str) : List (EditorTextHit Physical Document) :=
  (matchIndices (foldText table caseSensitive query) (folded table caseSensitive source)).filterMap
    (hitAt? table caseSensitive origin source (foldText table caseSensitive query)
      (table.toLowercase (foldText table caseSensitive query)))

theorem foldText_ne_nil (hquery : query ≠ []) : foldText table caseSensitive query ≠ [] := by
  unfold foldText
  split_ifs
  · exact hquery
  · exact CaseTable.toLowercase_ne_nil hquery

theorem hits_textHits (hquery : query ≠ []) :
    (textHits table caseSensitive results origin source query).hits =
    results.hits ++ (matchHits table caseSensitive origin source query).take
      (maxTextHits - results.hits.length) := by
  unfold textHits
  dsimp only
  rw [if_neg (by rw [List.isEmpty_iff]; exact foldText_ne_nil hquery), hits_hitLoop]
  split_ifs <;> rfl

theorem newHits_textHits (hquery : query ≠ []) :
    newHits results (textHits table caseSensitive results origin source query) =
      (matchHits table caseSensitive origin source query).take
        (maxTextHits - results.hits.length) := by
  unfold newHits
  rw [hits_textHits hquery, List.drop_left]

variable (origin) in
/-- The hit of a match has the range from the first character that it reaches to the last one. -/
theorem hitAt?_plain (hsource : Searchable source) (hquery : query ≠ []) (previewQuery : Str)
    (hocc : Substrings.OccursAt query (folded table caseSensitive source) i) : ∃ first last hit,
      Traced.Holds (foldChar table caseSensitive) source first i ∧
      Traced.Holds (foldChar table caseSensitive) source last (i + query.length - 1) ∧
      hitAt? table caseSensitive origin source query previewQuery
        (byteLen ((folded table caseSensitive source).take i)) = some hit ∧
      hit.range.start = byteLen (source.take first) ∧ hit.range.stop =
        byteLen (source.take (last + 1)) := by
  obtain ⟨first, last, hfirst, hlast, hspan⟩ := matchSpan_plain hsource.plain hquery hocc
  have hfits : ∀ k, byteLen (source.take k) ≤ u32Max := fun k => by
    refine Nat.le_trans ?_ hsource.fits
    conv_rhs => rw [← List.take_append_drop k source, byteLen_append]
    exact Nat.le_add_right _ _
  have horder : byteLen (source.take first) ≤ byteLen (source.take (last + 1)) := by
    have hle : first ≤ last := hfirst.le hlast (by have := List.length_pos_iff.mpr hquery; omega)
    rw [← List.take_append_drop first (source.take (last + 1)), List.take_take,
      Nat.min_eq_left (by omega), byteLen_append]
    exact Nat.le_add_right _ _
  refine ⟨first, last, textHit table origin source previewQuery (byteLen (source.take first))
    (byteLen (source.take (last + 1))), hfirst, hlast, ?_, ?_⟩
  · unfold hitAt?
    rw [hspan]
    dsimp only [Option.bind_eq_bind, Option.bind_some]
    rw [tryU32_eq_some_iff.mpr ⟨hfits first, rfl⟩, tryU32_eq_some_iff.mpr ⟨hfits (last + 1), rfl⟩]
    rfl
  · unfold textHit TextRange.new
    dsimp only
    rw [dif_pos horder]
    exact ⟨rfl, rfl⟩

theorem boundary_take (source : Str) (k : Nat) : Boundary source (byteLen (source.take k)) :=
  ⟨source.take k, source.drop k, (List.take_append_drop k source).symm, rfl⟩

theorem byteLen_take_lt {a b : Nat} (hlt : a < b) (hlength : a < source.length) :
    byteLen (source.take a) < byteLen (source.take b) := by
  have hsplit : source.take b = source.take a ++ source[a] :: (source.take b).drop (a + 1) := by
    have hlen : a < (source.take b).length := by rw [List.length_take]; omega
    conv_lhs => rw [← List.take_append_drop a (source.take b), List.take_take,
      Nat.min_eq_left hlt.le, List.drop_eq_getElem_cons hlen, List.getElem_take]
  rw [hsplit, byteLen_append, byteLen_cons]
  have := (source[a]).utf8Size_pos
  omega

/-- An occurrence of the query is one of the folded query, where the query is folded as the source
is. -/
theorem occursAt_folded (hplain : hasTriple {} source = false)
    (hfold : foldText table caseSensitive query = Traced.text (foldChar table caseSensitive) query)
    (hocc : Substrings.OccursAt query source i) :
    Substrings.OccursAt (foldText table caseSensitive query) (folded table caseSensitive source)
      (Traced.place (foldChar table caseSensitive) source i) := by
  obtain ⟨front, back, rfl, rfl⟩ := Substrings.occursAt_iff.mp hocc
  rw [folded_plain _ _ hplain, hfold, Traced.text_append, Traced.text_append]
  unfold Traced.place
  rw [List.take_left]
  exact Substrings.occursAt_iff.mpr ⟨_, _, rfl, rfl⟩

/-- Every hit comes from a match. -/
theorem exists_of_mem_newHits (hsource : Searchable source) (hquery : query ≠ [])
    {hit : EditorTextHit Physical Document}
    (h : hit ∈ newHits results (textHits table caseSensitive results origin source query)) :
    ∃ i first last,
      Substrings.OccursAt (foldText table caseSensitive query)
        (folded table caseSensitive source) i ∧
      Traced.Holds (foldChar table caseSensitive) source first i ∧
      Traced.Holds (foldChar table caseSensitive) source last
        (i + (foldText table caseSensitive query).length - 1) ∧
      hit.range.start = byteLen (source.take first) ∧ hit.range.stop =
        byteLen (source.take (last + 1)) := by
  rw [newHits_textHits hquery] at h
  obtain ⟨start, hstart, hhit⟩ := List.mem_filterMap.mp (List.mem_of_mem_take h)
  obtain ⟨i, hi, rfl⟩ := List.mem_map.mp hstart
  have hocc := Substrings.occursAt_of_mem_disjoint hi
  obtain ⟨first, last, hit', hfirst, hlast, hhit', hrange⟩ :=
    hitAt?_plain origin hsource (foldText_ne_nil hquery)
      (table.toLowercase (foldText table caseSensitive query)) hocc
  obtain rfl : hit' = hit := Option.some.inj (hhit'.symm.trans hhit)
  exact ⟨i, first, last, hocc, hfirst, hlast, hrange⟩

/-- Below the budget an occurrence is overlapped by a hit. -/
theorem exists_meets (hsource : Searchable source) (hquery : query ≠ [])
    (hfold : foldText table caseSensitive query = Traced.text (foldChar table caseSensitive) query)
    (hbudget : (textHits table caseSensitive results origin source query).hits.length < maxTextHits)
    (hocc : Substrings.OccursAt query source i) :
    ∃ hit ∈ newHits results (textHits table caseSensitive results origin source query),
      hit.Meets query source i := by
  have hpos : 0 < query.length := List.length_pos_iff.mpr hquery
  have hlt : i < source.length := by have := hocc.1; omega
  obtain ⟨j, hj, hle, hend⟩ := Substrings.exists_mem_disjoint (foldText_ne_nil hquery)
    (occursAt_folded hsource.plain hfold hocc)
  obtain ⟨first, last, hit, hfirst, hlast, hhit, hstart, hstop⟩ :=
    hitAt?_plain origin hsource (foldText_ne_nil hquery)
      (table.toLowercase (foldText table caseSensitive query))
        (Substrings.occursAt_of_mem_disjoint hj)
  -- all matches fit the budget
  have hnew : newHits results (textHits table caseSensitive results origin source query) =
      matchHits table caseSensitive origin source query := by
    rw [hits_textHits hquery, List.length_append, List.length_take] at hbudget
    rw [newHits_textHits hquery, List.take_of_length_le (by omega)]
  have hplace := Traced.holds_place (foldChar table caseSensitive) hlt (foldChar_ne_nil _)
  refine ⟨hit, ?_, ?_, ?_⟩
  · rw [hnew]
    exact List.mem_filterMap.mpr ⟨_, List.mem_map.mpr ⟨j, hj, rfl⟩, hhit⟩
  · have hbefore : first ≤ i := hfirst.le hplace hle
    rw [hstart]
    exact byteLen_take_lt (by omega) hfirst.lt
  · have hbehind : i ≤ last := hplace.le hlast (by omega)
    rw [hstop]
    exact byteLen_take_lt (by omega) hlt

/-- A search finds everything where the query is folded as the source is. -/
theorem findsAll_textHits (hsource : Searchable source) (hquery : query ≠ [])
    (hfold : foldText table caseSensitive query = Traced.text
      (foldChar table caseSensitive) query) :
    FindsAll caseSensitive source query results
      (textHits table caseSensitive results origin source query) where
  overlapped := by
    by_cases hbudget : maxTextHits ≤ (textHits table caseSensitive results origin source
      query).hits.length
    · exact .inl hbudget
    · refine .inr fun i hocc => ⟨i, .refl, ?_⟩
      exact exists_meets hsource hquery hfold (Nat.not_le.mp hbudget) hocc
  boundaries := fun hit h => by
    obtain ⟨i, first, last, -, -, -, hstart, hstop⟩ := exists_of_mem_newHits hsource hquery h
    rw [hstart, hstop]
    exact ⟨boundary_take _ _, boundary_take _ _⟩
  verbatim := fun hsensitive hit h => by
    subst hsensitive
    obtain ⟨i, first, last, hocc, hfirst, hlast, hstart, hstop⟩ :=
      exists_of_mem_newHits hsource hquery h
    have hletter : ∀ c ∈ source, foldChar table true c = [id c] := fun _ _ => rfl
    have hpos : 0 < query.length := List.length_pos_iff.mpr hquery
    have hplace : Substrings.OccursAt query source i := by
      rwa [folded_plain _ _ hsource.plain, text_foldChar_sensitive] at hocc
    have hquerylast : last = i + query.length - 1 := Holds.eq_of_letter hletter hlast
    rw [hstart, hstop, Holds.eq_of_letter hletter hfirst, hquerylast, Nat.sub_add_cancel (by omega)]
    obtain ⟨front, back, rfl, rfl⟩ := Substrings.occursAt_iff.mp hplace
    refine getText_eq_some_iff.mpr ⟨front, back,
      (List.append_assoc _ _ _).symm, by rw [List.take_left], ?_⟩
    rw [byteLen_take_add hplace]

end Reports

/-! ## Final sigmas -/

section Sigmas

variable {table} {caseSensitive} {source query : Str}
    {results : EditorTextResults Physical Document}
  {origin : TextOrigin Physical Document}

/-- A query with a final sigma is not in a folded source whose characters have no such small
letter. -/
theorem not_occursAt_folded (hplain : hasTriple {} source = false)
    (hsigma : table.HasFinalSigma query) (hnone : ∀ c ∈ source, 'ς' ∉ table.lower c) (i : Nat) :
    ¬ Substrings.OccursAt (foldText table false query) (folded table false source) i := by
  intro hocc
  obtain ⟨front, back, htext, -⟩ := Substrings.occursAt_iff.mp hocc
  have hmem : 'ς' ∈ folded table false source := by
    rw [htext]
    exact List.mem_append_right _ (List.mem_append_left _ hsigma.mem_toLowercase)
  rw [folded_plain _ _ hplain] at hmem
  obtain ⟨c, hc, hlower⟩ := List.mem_flatMap.mp hmem
  exact hnone c hc hlower

theorem findsAll_of_not_infix (hsource : Searchable source) (hquery : query ≠ [])
    (habsent : ¬ query <:+: source) :
    FindsAll false source query results (textHits table false results origin source query) where
  overlapped := .inr fun i hocc => by
    obtain ⟨front, back, rfl, -⟩ := Substrings.occursAt_iff.mp hocc
    exact absurd ⟨front, back, List.append_assoc _ _ _⟩ habsent
  boundaries := fun hit h => by
    obtain ⟨i, first, last, -, -, -, hstart, hstop⟩ := exists_of_mem_newHits hsource hquery h
    rw [hstart, hstop]
    exact ⟨boundary_take _ _, boundary_take _ _⟩
  verbatim := fun h => absurd h Bool.false_ne_true

/-- With the budget reached nothing is asked for. -/
theorem findsAll_of_budget (hquery : query ≠ []) (hbudget : maxTextHits ≤ results.hits.length) :
    FindsAll caseSensitive source query results
      (textHits table caseSensitive results origin source query) := by
  have hnone : newHits results (textHits table caseSensitive results origin source query) = [] := by
    rw [newHits_textHits hquery, Nat.sub_eq_zero_of_le hbudget, List.take_zero]
  refine ⟨.inl ?_, fun hit h => ?_, fun _ hit h => ?_⟩
  · rw [hits_textHits hquery, List.length_append]
    exact Nat.le_add_right_of_le hbudget
  · rw [hnone] at h
    exact absurd h List.not_mem_nil
  · rw [hnone] at h
    exact absurd h List.not_mem_nil

/-- The query is not folded or folded as the source is, it is not there, or the budget is
reached. -/
def FoldedAlike (table : CaseTable) (caseSensitive : Bool) (source query : Str)
    (results : EditorTextResults Physical Document) : Prop :=
  caseSensitive = true ∨ ¬ table.HasFinalSigma query ∨ ¬ query <:+: source ∨
    maxTextHits ≤ results.hits.length

end Sigmas

/-- The letters of ASCII and the Greek ones. -/
def greekCase : CaseTable where
  lower c := if 0x391 ≤ c.toNat ∧ c.toNat ≤ 0x3A9 ∧ c.toNat ≠ 0x3A2 then
    [Char.ofNat (c.toNat + 0x20)] else [c.toLower]
  cased c := c.isAlpha || decide (0x391 ≤ c.toNat ∧ c.toNat ≤ 0x3C9 ∧ c.toNat ≠ 0x3A2)
  caseIgnorable c := c ∈ ['\'', '.', ':', '^', Char.ofNat 0x60]
  lower_ne_nil c := by split_ifs <;> exact List.cons_ne_nil _ _
  lower_ascii c h := if_neg fun hgreek => absurd h (by omega)
  lower_sigma := by decide
  lower_lower c d hd := by
    have hletter : ¬ (0x391 ≤ d.toNat ∧ d.toNat ≤ 0x3A9 ∧ d.toNat ≠ 0x3A2) ∧ d.toLower = d := by
      split_ifs at hd with hgreek
      · obtain rfl := List.mem_singleton.mp hd
        have hcode : (Char.ofNat (c.toNat + 0x20)).toNat = c.toNat + 0x20 :=
          Utf8.toNat_charOf (Or.inl (by omega))
        exact ⟨by omega, AsciiCase.toLower_of_le (by omega)⟩
      · obtain rfl := List.mem_singleton.mp hd
        refine ⟨?_, AsciiCase.toLower_toLower c⟩
        by_cases hascii : c.toNat < 0x80
        · have hlt := AsciiCase.toNat_toLower_lt hascii
          omega
        · rwa [AsciiCase.toLower_of_le (Nat.not_lt.mp hascii)]
    rw [if_neg hletter.1, hletter.2]

def noteOrigin : TextOrigin Unit Unit := ⟨0, "notes/free.txt".toList, (), none, none⟩

theorem finalSigma_not_mem_lower (c : Char) (hc : c ∈ "ΟΔΟΣ".toList) : 'ς' ∉ greekCase.lower c := by
  have hall : ("ΟΔΟΣ".toList.all fun c => decide ('ς' ∉ greekCase.lower c)) = true := by decide
  exact of_decide_eq_true (List.all_eq_true.mp hall c hc)

end ParadoxCode.Ide
