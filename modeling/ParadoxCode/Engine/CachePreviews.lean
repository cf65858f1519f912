import Mathlib.Data.Prod.Lex
import ParadoxCode.Index.FileState
import ParadoxCode.Lib.OrderedInsert
import ParadoxCode.Parser.LocalisationFile

/-!
# The previews of the cache

`collect_localisation_previews` takes the previews that a file state retains. Scans keep no trees:
`cache_only` turns the tree of a source into the previews of `localisation_previews_from_parsed`,
and no step of the host brings a tree back (`KeptOf.spec`). For a resident tree the collector has a
walk of its own, which does not decode the values. Both walks are `previewsOf`; they differ in what
shows a value.
-/

namespace ParadoxCode.Engine.Previews

open ParadoxCode.Index ParadoxCode.Parser OrderedInsert

/-! ## Collecting -/

/-- What a snapshot has of a file: previews that were retained, or the tree. -/
structure FileState where
  cachedLocalisationPreviews : Option (List (TextRange × LocalisationPreview))
  parsed : Option ParsedFile

namespace FileState

/-- The previews that are retained, or those of the tree if there are any. -/
def retainedPreviews (state : FileState) :
    Option (Option (List (TextRange × LocalisationPreview))) :=
  match state.cachedLocalisationPreviews, state.parsed with
  | some cached, _ => some (some cached)
  | none, none => some none
  | none, some parsed => (localisationPreviewsFromParsed parsed).map fun previews =>
      if previews.isEmpty then none else some previews

/-- `FileState::cache_only` and `cache_only_from_existing`: without the tree. -/
def cacheOnly (state : FileState) : Option FileState :=
  state.retainedPreviews.map fun previews => ⟨previews, none⟩

/-- The state that `build_file_state` makes of a tree. -/
def built (parsed : ParsedFile) : FileState := ⟨none, some parsed⟩

theorem cacheOnly_built (parsed : ParsedFile) : (built parsed).cacheOnly =
    (localisationPreviewsFromParsed parsed).map fun previews =>
      ⟨if previews.isEmpty then none else some previews, none⟩ :=
  Option.map_map ..

/-- An unchanged source in a scan (`load_source_file_job`). -/
def reused (previous : FileState) : Option FileState :=
  if previous.parsed.isNone then some previous else previous.cacheOnly

/-- The state of a source after a change of the rules or facts. -/
def rebuilt (parsed : ParsedFile) (previous : FileState) : Option FileState :=
  if previous.parsed.isNone then (built parsed).cacheOnly else some (built parsed)

/-- `FileState::evict_frontend`. -/
def evictFrontend (state : FileState) : FileState := { state with parsed := none }

end FileState

/-- The states that a host has of a source with this tree. -/
inductive KeptOf (parsed : ParsedFile) : FileState → Prop where
  | load {state : FileState} (h : (FileState.built parsed).cacheOnly = some state) :
      KeptOf parsed state
  | reuse {previous state : FileState} (hprevious : KeptOf parsed previous)
    (h : previous.reused = some state) : KeptOf parsed state
  | rebuild {previous state : FileState} (hprevious : KeptOf parsed previous)
    (h : previous.rebuilt parsed = some state) : KeptOf parsed state
  | evict {previous : FileState} (hprevious : KeptOf parsed previous) :
    KeptOf parsed previous.evictFrontend

structure SourceFile where
  id : Nat
  logicalPath : Str
  state : Option FileState

/-- An entry of the collected map, under its file and its range. -/
abbrev Entry := (Nat × TextRange) × LocalisationPreview

/-- The derived order of the keys. -/
def entryKey (entry : Entry) : Nat ×ₗ Nat ×ₗ Nat :=
  toLex (entry.1.1, toLex (entry.1.2.start, entry.1.2.stop))

/-- `IndexCacheError::InvalidData`. -/
structure InvalidData where
  detail : Str
  deriving DecidableEq

/-- The entries of a file go into the map; a range that it holds is reported. -/
def insertEntries (file : SourceFile) (entries : List (TextRange × LocalisationPreview))
    (previews : List Entry) : Except InvalidData (List Entry) :=
  match insertAll entryKey (entries.map fun entry => ((file.id, entry.1), entry.2)) previews with
  | some previews => .ok previews
  | none => .error ⟨"duplicate localisation preview in ".toList ++ file.logicalPath⟩

/-- The body of the loop of `collect_localisation_previews`. The value of an entry is not
decoded. -/
def collectFile (file : SourceFile) (previews : List Entry) :
    Option (Except InvalidData (List Entry)) :=
  match file.state with
  | none => some (.error ⟨"Vanilla file ".toList ++ file.logicalPath ++
      " has no materialized file state".toList⟩)
  | some state =>
    match state.cachedLocalisationPreviews, state.parsed with
    | some cached, _ => some (insertEntries file cached previews)
    | none, none => some (.ok previews)
    | none, some parsed =>
      if parsed.format = .localisation then
        parsed.root.map fun root => insertEntries file (previewsOf id parsed none root.children)
          previews
      else some (.ok previews)

/-! ## Values -/

/-- The text between the quotes of an entry. -/
def writtenValue (parsed : ParsedFile) (node : CstNode) : Option Str := do
  let valueNode ← node.children.find? fun child =>
    child.kind == .localisationString || child.kind == .unquotedValue
  let raw ← parsed.text valueNode.range
  return unquote (trim raw)

/-- The written values of the entries among the nodes. -/
def writtenValues (parsed : ParsedFile) (nodes : List CstNode) : List Str :=
  nodes.filterMap fun node => if node.kind = .localisationEntry then
    writtenValue parsed node else none

/-- An entry whose value is not empty. -/
def isShown (parsed : ParsedFile) (node : CstNode) : Bool :=
  node.kind == .localisationEntry && (writtenValue parsed node).any (! ·.isEmpty)

def shownRanges (parsed : ParsedFile) (nodes : List CstNode) : List TextRange :=
  (nodes.filter (isShown parsed)).map CstNode.range

theorem truncatePreview_eq_nil_iff {value : Str} : truncatePreview value = [] ↔ value = [] := by
  unfold truncatePreview
  rw [List.append_eq_nil_iff, List.take_eq_nil_iff]
  constructor
  · rintro ⟨h | h, -⟩
    · cases h
    · exact h
  · rintro rfl
    exact ⟨.inr rfl, rfl⟩

theorem entryValue_eq (decode : Str → Str) (parsed : ParsedFile) (node : CstNode) :
    entryValue decode parsed node = (writtenValue parsed node).bind fun value =>
      if (truncatePreview (decode value)).isEmpty then none else
        some (truncatePreview (decode value)) := by
  unfold entryValue writtenValue
  simp only [Option.bind_eq_bind, Option.bind_assoc, Option.pure_def, Option.bind_some]

theorem decodeText_eq_nil_iff {value : Str} : (Transcode.decodeText value).text = [] ↔
    value = [] := by
  unfold Transcode.decodeText
  fun_cases Transcode.decodeTextFrom value 0 <;> simp

theorem decodeValue_eq_nil_iff {value : Str} : decodeValue value = [] ↔ value = [] := by
  unfold decodeValue
  split_ifs
  · exact decodeText_eq_nil_iff
  · rfl

/-- A readable value is shown as it is written. -/
theorem decodeValue_of_readable {value : Str}
    (h : ∀ c ∈ value, Transcode.isMarkerCodePoint c.toNat = false) : decodeValue value = value := by
  unfold decodeValue
  rw [if_neg]
  rw [List.any_eq_true]
  rintro ⟨c, hc, hmarker⟩
  rw [h c hc] at hmarker
  cases hmarker

/-! ## Two walks -/

section

variable {decode : Str → Str} {parsed : ParsedFile}

/-- The entry of a node, seen by both walks. -/
theorem entryValue_cases (hdecode : ∀ value, decode value = [] ↔ value = []) (node : CstNode) :
    (entryValue decode parsed node = none ∧ entryValue id parsed node = none ∧
      ∀ value ∈ writtenValue parsed node, value = []) ∨
    ∃ value, writtenValue parsed node = some value ∧ entryValue decode parsed node =
      some (truncatePreview (decode value)) ∧
      entryValue id parsed node = some (truncatePreview value) ∧ value ≠ [] := by
  rw [entryValue_eq, entryValue_eq]
  cases writtenValue parsed node with
  | none => exact .inl ⟨rfl, rfl, by simp⟩
  | some value =>
    by_cases hempty : value = []
    · have hnil : truncatePreview (decode value) = [] := by
        rw [truncatePreview_eq_nil_iff, hdecode, hempty]
      have hnil' : truncatePreview value = [] := truncatePreview_eq_nil_iff.mpr hempty
      refine .inl ⟨?_, ?_, ?_⟩
      · rw [Option.bind_some, hnil]
        rfl
      · rw [Option.bind_some, id, hnil']
        rfl
      · rintro _ ⟨⟩
        exact hempty
    · have hne : (truncatePreview (decode value)).isEmpty = false := by
        rw [List.isEmpty_eq_false_iff, Ne, truncatePreview_eq_nil_iff, hdecode]
        exact hempty
      have hne' : (truncatePreview value).isEmpty = false := by
        rw [List.isEmpty_eq_false_iff, Ne, truncatePreview_eq_nil_iff]
        exact hempty
      refine .inr ⟨value, rfl, ?_, ?_, hempty⟩
      · rw [Option.bind_some, hne]
        rfl
      · rw [Option.bind_some, id, hne']
        rfl

/-- Every walk shows the entries that have a value. -/
theorem previewsOf_ranges (hdecode : ∀ value, decode value = [] ↔ value = [])
    (language : Option Str) (nodes : List CstNode) :
    (previewsOf decode parsed language nodes).map Prod.fst = shownRanges parsed nodes := by
  induction nodes generalizing language with
  | nil => rfl
  | cons node nodes ih =>
    unfold previewsOf shownRanges
    rw [List.filter_cons]
    by_cases hentry : node.kind = .localisationEntry
    · have hheader : node.kind ≠ .languageHeader := by rw [hentry]; decide
      rw [if_neg hheader, if_pos hentry, List.map_append, ih]
      unfold isShown
      rw [hentry, beq_self_eq_true, Bool.true_and]
      obtain ⟨h, -, hempty⟩ | ⟨value, hvalue, h, -, hne⟩ := @entryValue_cases _ parsed hdecode node
      · rw [h, if_neg]
        · rfl
        · rw [Option.any_eq_true]
          rintro ⟨value, hvalue, hne⟩
          rw [hempty value hvalue] at hne
          cases hne
      · rw [h, hvalue, if_pos (by simpa using hne)]
        rfl
    · have hshown : isShown parsed node = false := by
        unfold isShown
        rw [beq_eq_false_iff_ne.mpr hentry, Bool.false_and]
      rw [hshown, if_neg hentry, if_neg Bool.false_ne_true]
      split_ifs
      · exact ih _
      · exact ih _

/-- Every walk shows them under the same languages. -/
theorem previewsOf_languages (hdecode : ∀ value, decode value = [] ↔ value = [])
    (language : Option Str) (nodes : List CstNode) :
    (previewsOf id parsed language nodes).map (fun entry => (entry.1, entry.2.language)) =
      (previewsOf decode parsed language nodes).map fun entry => (entry.1, entry.2.language) := by
  induction nodes generalizing language with
  | nil => rfl
  | cons node nodes ih =>
    unfold previewsOf
    by_cases hheader : node.kind = .languageHeader
    · rw [if_pos hheader, if_pos hheader]
      exact ih _
    · rw [if_neg hheader, if_neg hheader, List.map_append, List.map_append, ih language]
      refine congrArg (· ++ _) ?_
      by_cases hentry : node.kind = .localisationEntry
      · rw [if_pos hentry, if_pos hentry]
        obtain ⟨h, h', -⟩ | ⟨value, -, h, h', -⟩ := @entryValue_cases _ parsed hdecode node
        · rw [h, h']
        · rw [h, h']
          rfl
      · rw [if_neg hentry, if_neg hentry]

/-- They show them alike where decoding changes no shown value. -/
theorem previewsOf_eq_iff (hdecode : ∀ value, decode value = [] ↔ value = [])
    (language : Option Str)
    (nodes : List CstNode) : previewsOf id parsed language nodes =
      previewsOf decode parsed language nodes ↔
      ∀ value ∈ writtenValues parsed nodes, truncatePreview (decode value) =
        truncatePreview value := by
  induction nodes generalizing language with
  | nil => simp [previewsOf, writtenValues]
  | cons node nodes ih =>
    unfold previewsOf writtenValues
    rw [List.filterMap_cons]
    by_cases hheader : node.kind = .languageHeader
    · have hentry : node.kind ≠ .localisationEntry := by rw [hheader]; decide
      rw [if_pos hheader, if_pos hheader, if_neg hentry]
      exact ih _
    · rw [if_neg hheader, if_neg hheader]
      by_cases hentry : node.kind = .localisationEntry
      · rw [if_pos hentry, if_pos hentry, if_pos hentry]
        obtain ⟨h, h', hempty⟩ | ⟨value, hvalue, h, h', -⟩ :=
          @entryValue_cases _ parsed hdecode node
        · rw [h, h']
          refine (ih language).trans ?_
          cases hvalue : writtenValue parsed node with
          | none => rfl
          | some value =>
            rw [List.forall_mem_cons]
            refine (and_iff_right ?_).symm
            rw [hempty value hvalue, (hdecode []).mpr rfl]
        · rw [h, h', hvalue, List.forall_mem_cons]
          show (node.range, LocalisationPreview.mk language (truncatePreview value)) ::
              previewsOf id parsed language nodes =
            (node.range, LocalisationPreview.mk language (truncatePreview (decode value))) ::
              previewsOf decode parsed language nodes ↔ _
          rw [List.cons_eq_cons, ih]
          refine and_congr_left fun _ => ?_
          simp [eq_comm]
      · rw [if_neg hentry, if_neg hentry, if_neg hentry]
        exact ih _

end

/-! ## The agreement -/

/-- A file whose tree is resident. -/
def resident (fileId : Nat) (path : Str) (parsed : ParsedFile) : SourceFile :=
  ⟨fileId, path, some (.built parsed)⟩

/-- Behind what the files before it gave, a resident file gives the previews that are derived from
its tree. -/
def PreviewsAgree (fileId : Nat) (path : Str) (parsed : ParsedFile)
    (previews : List Entry) : Prop :=
  collectFile (resident fileId path parsed) previews =
    (localisationPreviewsFromParsed parsed).map fun entries =>
      .ok (previews ++ entries.map fun entry => ((fileId, entry.1), entry.2))

/-- The file gives the map the previews that are derived from the tree. -/
def Collects (file : SourceFile) (parsed : ParsedFile) (previews : List Entry) : Prop :=
  collectFile file previews =
    (localisationPreviewsFromParsed parsed).map fun entries => insertEntries file entries previews

variable {parsed : ParsedFile}

/-- Every state of the host has the derived previews, and no tree. -/
theorem KeptOf.spec {state : FileState} (h : KeptOf parsed state) :
    (FileState.built parsed).cacheOnly = some state ∧ state.parsed = none := by
  have hparsed : ∀ {kept : FileState}, (FileState.built parsed).cacheOnly = some kept →
    kept.parsed = none := by
    intro kept hkept
    obtain ⟨previews, -, rfl⟩ := Option.map_eq_some_iff.mp hkept
    rfl
  induction h with
  | load h => exact ⟨h, hparsed h⟩
  | reuse _ h ih =>
    unfold FileState.reused at h
    rw [ih.2] at h
    cases h
    exact ih
  | rebuild _ h ih =>
    unfold FileState.rebuilt at h
    rw [ih.2] at h
    exact ⟨h, hparsed h⟩
  | evict _ ih =>
    have hsame : ∀ state : FileState, state.parsed = none → state.evictFrontend = state := by
      rintro ⟨cached, _⟩ rfl
      rfl
    rw [hsame _ ih.2]
    exact ih

/-- A state of the host gives the derived previews. -/
theorem collects_of_kept {state : FileState} (h : KeptOf parsed state) (fileId : Nat)
    (path : Str) (previews : List Entry) : Collects ⟨fileId, path, some state⟩ parsed previews := by
  obtain ⟨hkept, -⟩ := h.spec
  rw [FileState.cacheOnly_built] at hkept
  obtain ⟨entries, hentries, rfl⟩ := Option.map_eq_some_iff.mp hkept
  unfold Collects
  rw [hentries]
  by_cases hempty : entries.isEmpty
  · rw [if_pos hempty, List.isEmpty_iff.mp hempty]
    rfl
  · rw [if_neg hempty]
    rfl

/-- The previews of the files before `fileId`. -/
structure CollectedBefore (fileId : Nat) (previews : List Entry) : Prop where
  ordered : Ordered entryKey previews
  lower : ∀ entry ∈ previews, entry.1.1 < fileId

/-- The ranges follow the derived order. -/
def InRangeOrder (ranges : List TextRange) : Prop :=
  ranges.Pairwise fun left right => toLex (left.start, left.stop) < toLex (right.start, right.stop)

variable {previews : List Entry}

theorem CollectedBefore.ordered_append_iff {fileId : Nat}
    (h : CollectedBefore fileId previews) (entries : List (TextRange × LocalisationPreview)) :
    Ordered entryKey (previews ++ entries.map fun entry => ((fileId, entry.1), entry.2)) ↔
      InRangeOrder (entries.map Prod.fst) := by
  unfold Ordered InRangeOrder
  rw [List.pairwise_append, List.pairwise_map, List.pairwise_map]
  have hkeys : ∀ left right : TextRange × LocalisationPreview,
      (entryKey ((fileId, left.1), left.2) < entryKey ((fileId, right.1), right.2)) =
        (toLex (left.1.start, left.1.stop) < toLex (right.1.start, right.1.stop)) := by
    intro left right
    simp [entryKey, Prod.Lex.lt_iff]
  simp only [hkeys]
  refine ⟨fun h => h.2.1, fun hranges => ⟨h.ordered, hranges, ?_⟩⟩
  intro entry hentry other hother
  obtain ⟨shown, -, rfl⟩ := List.mem_map.mp hother
  exact Prod.Lex.lt_iff.mpr (.inl (h.lower entry hentry))

theorem parse_format {source : Str}
    (hparse : ParadoxCode.Parser.parse .localisation source = some parsed) :
    parsed.format = .localisation := by
  obtain ⟨parts, -, rfl⟩ := Option.map_eq_some_iff.mp hparse
  rfl

theorem localisationPreviewsFromParsed_eq (hformat : parsed.format = .localisation) :
    localisationPreviewsFromParsed parsed = parsed.root.map fun root =>
      previewsOf decodeValue parsed none root.children :=
  if_pos hformat

theorem collectFile_resident (fileId : Nat) (path : Str) (hformat : parsed.format = .localisation)
    (previews : List Entry) : collectFile (resident fileId path parsed) previews =
      parsed.root.map fun root =>
      insertEntries (resident fileId path parsed) (previewsOf id parsed none root.children)
        previews := if_pos hformat

theorem insertEntries_eq_ok_iff {file : SourceFile}
    {entries : List (TextRange × LocalisationPreview)}
    {collected : List Entry} : insertEntries file entries previews = .ok collected ↔
      insertAll entryKey (entries.map fun entry => ((file.id, entry.1), entry.2)) previews =
        some collected := by
  unfold insertEntries
  cases insertAll entryKey (entries.map fun entry => ((file.id, entry.1), entry.2)) previews <;>
    simp

/-! ## Sources below 1 GiB -/

section

open Localisation

def isEntry (node : CstNode) : Bool := node.kind == .localisationEntry

variable {source : Str}

theorem filter_bom {lineStart content : Nat} {first : Bool} {nodes : List CstNode}
    {tokens : List SyntaxToken} (h : BomAt source lineStart first nodes tokens content) :
    nodes.filter isEntry = [] := by
  cases h <;> rfl

/-- A line has one entry at most, and it starts where the line does. -/
theorem filter_content {start stop : Nat} {nodes : List CstNode} {tokens : List SyntaxToken}
    {errors : List SyntaxError} (h : ContentAt source start stop nodes tokens errors)
    (hfits : stop ≤ u32Max) :
    ∀ entry ∈ nodes.filter isEntry, nodes.filter isEntry = [entry] ∧ entry.range.start = start ∧
    start < stop := by
  cases h with
  | blank => simp
  | comment => simp [isEntry, CstNode.kind]
  | line hlt hline =>
    cases hline with
    | missingKey => simp [isEntry, CstNode.kind]
    | header => simp [isEntry, CstNode.kind]
    | entry hhead hrest =>
      intro entry hentry
      obtain rfl : entry = _ := List.mem_singleton.mp (List.mem_of_mem_filter hentry)
      refine ⟨rfl, ?_, hlt⟩
      show (range start stop).start = start
      rw [range_eq hlt.le hfits]

/-- The entries of a file start one behind the other. -/
theorem entries_inOrder (hfits : byteLen source ≤ u32Max) {first : Bool} {lineStart : Nat}
    {nodes : List CstNode} {tokens : List SyntaxToken} {errors : List SyntaxError}
    (h : LinesAt source first lineStart nodes tokens errors) :
    (nodes.filter isEntry).Pairwise (fun left right => left.range.start < right.range.start) ∧
      ∀ entry ∈ nodes.filter isEntry, lineStart ≤ entry.range.start := by
  induction h with
  | last hbom hblank hcontent hstop hend =>
    rename_i start stop _ nodes _ _ _
    have hentry := filter_content hcontent (hstop.le.trans hfits)
    have hle := hbom.size_le
    have hle' := hblank.le
    rw [List.filter_append, filter_bom hbom, List.nil_append]
    cases hfilter : nodes.filter isEntry with
    | nil => exact ⟨.nil, by simp⟩
    | cons entry rest =>
      obtain ⟨heq, hstart, -⟩ := hentry entry (by rw [hfilter]; exact List.mem_cons_self)
      rw [← hfilter, heq]
      refine ⟨List.pairwise_singleton _ _, ?_⟩
      rintro _ hmem
      obtain rfl := List.mem_singleton.mp hmem
      omega
  | next hbom hblank hcontent hstop hlt hend hrest ih =>
    rename_i start stop next _ nodes _ _ _ _ _ _
    have hentry := filter_content hcontent (hstop.le.trans hfits)
    have hle := hbom.size_le
    have hle' := hblank.le
    have hstartStop : start ≤ stop := by
      cases hcontent with
      | blank h => exact h.le
      | comment h => exact h.le
      | line h => exact h.le
    rw [List.filter_append, List.filter_append, filter_bom hbom, List.nil_append]
    refine ⟨List.pairwise_append.mpr ⟨?_, ih.1, ?_⟩, ?_⟩
    · cases hfilter : nodes.filter isEntry with
      | nil => exact .nil
      | cons entry rest =>
        obtain ⟨heq, -⟩ := hentry entry (by rw [hfilter]; exact List.mem_cons_self)
        rw [← hfilter, heq]
        exact List.pairwise_singleton _ _
    · intro entry hmem other hother
      obtain ⟨-, hstart, hltStop⟩ := hentry entry hmem
      have := ih.2 other hother
      omega
    · intro entry hmem
      rcases List.mem_append.mp hmem with hmem | hmem
      · obtain ⟨-, hstart, -⟩ := hentry entry hmem
        omega
      · have := ih.2 entry hmem
        omega

/-- The ranges of the shown entries increase in every source below 1 GiB. -/
theorem parse_inRangeOrder (hsize : byteLen source < 2 ^ 30) {parsed : ParsedFile}
    (hparse : Parser.parse .localisation source = some parsed) :
    ∀ root ∈ parsed.root, InRangeOrder (shownRanges parsed root.children) := by
  obtain ⟨parts, nodes, hparts, hparsed⟩ := exists_parse source
  obtain ⟨parts', hparts', rfl⟩ := Option.map_eq_some_iff.mp hparse
  obtain rfl : parts = parts' := Option.some.inj (hparts.symm.trans hparts')
  have hsizes := hparsed.lines.size_le_mul
  have hroot := hparsed.fits (by omega)
  intro root hmem
  obtain rfl : root = _ := Option.some.inj ((Option.mem_def.mp hmem).symm.trans hroot)
  have horder := (entries_inOrder (by unfold u32Max; omega) hparsed.lines).1
  unfold InRangeOrder shownRanges
  rw [List.pairwise_map]
  refine (horder.sublist ?_).imp fun hlt => Prod.Lex.lt_iff.mpr (.inl hlt)
  refine List.monotone_filter_right nodes ?_
  intro node hshown
  exact (Bool.and_eq_true_iff.mp hshown).1

end

/-- Below 1 GiB the derived previews stand behind what was collected before. -/
theorem insertEntries_derived {source : Str} (hsize : byteLen source < 2 ^ 30)
    (hparse : parse .localisation source = some parsed) {file : SourceFile}
    (hbefore : CollectedBefore file.id previews) :
    ∀ entries ∈ localisationPreviewsFromParsed parsed,
      insertEntries file entries previews =
        .ok (previews ++ entries.map fun entry => ((file.id, entry.1), entry.2)) := by
  intro entries hentries
  rw [localisationPreviewsFromParsed_eq (parse_format hparse)] at hentries
  obtain ⟨root, hroot, rfl⟩ := Option.map_eq_some_iff.mp hentries
  rw [insertEntries_eq_ok_iff]
  refine (insertAll_eq_append_iff hbefore.ordered).mpr ((hbefore.ordered_append_iff _).mpr ?_)
  rw [previewsOf_ranges fun _ => decodeValue_eq_nil_iff]
  exact parse_inRangeOrder hsize hparse root hroot

/-- The entries of the source have no escape markers in their values. -/
def Readable (parsed : ParsedFile) : Prop :=
  ∀ root ∈ parsed.root, ∀ value ∈ writtenValues parsed root.children,
    ∀ c ∈ value, Transcode.isMarkerCodePoint c.toNat = false

/-- **Every localisation source gives its derived previews** from each state that the host has of
it. A resident tree gives entries with the same ranges and languages, and the same values if they
are readable. -/
theorem collects_derived {source : Str} {parsed : ParsedFile}
    (hparse : parse .localisation source = some parsed) (fileId : Nat) (path : Str)
    (previews : List Entry) :
    (∀ state, KeptOf parsed state → Collects ⟨fileId, path, some state⟩ parsed previews) ∧
    (∃ raws : Option (List (TextRange × LocalisationPreview)),
        collectFile (resident fileId path parsed) previews =
        raws.map (fun raw => insertEntries (resident fileId path parsed) raw previews) ∧
      raws.map (List.map fun entry => (entry.1, entry.2.language)) =
        (localisationPreviewsFromParsed parsed).map
          (List.map fun entry => (entry.1, entry.2.language))) ∧
    (Readable parsed → Collects (resident fileId path parsed) parsed previews) ∧
    (byteLen source < 2 ^ 30 → CollectedBefore fileId previews → ∀ file : SourceFile,
      file.id = fileId →
      Collects file parsed previews → collectFile file previews =
        (localisationPreviewsFromParsed parsed).map fun entries =>
          .ok (previews ++ entries.map fun entry => ((fileId, entry.1), entry.2))) := by
  have hformat := parse_format hparse
  refine ⟨fun state hstate => collects_of_kept hstate fileId path previews, ?_, ?_, ?_⟩
  · refine ⟨parsed.root.map fun root => previewsOf id parsed none root.children, ?_, ?_⟩
    · rw [collectFile_resident fileId path hformat, Option.map_map]
      rfl
    rw [localisationPreviewsFromParsed_eq hformat, Option.map_map, Option.map_map]
    refine congrArg (fun f => parsed.root.map f) (funext fun root => ?_)
    exact previewsOf_languages (fun _ => decodeValue_eq_nil_iff) none root.children
  · intro hreadable
    unfold Collects
    rw [collectFile_resident fileId path hformat, localisationPreviewsFromParsed_eq hformat,
      Option.map_map]
    refine Option.map_congr fun root hroot => ?_
    have hsame := (previewsOf_eq_iff (fun _ => decodeValue_eq_nil_iff) none root.children).mpr
      fun value hvalue => congrArg truncatePreview
        (decodeValue_of_readable (hreadable root hroot value hvalue))
    rw [hsame]
    rfl
  · rintro hsize hbefore file rfl hcollects
    rw [hcollects]
    exact Option.map_congr (insertEntries_derived hsize hparse hbefore)

/-- A value with an escape triple. -/
def escaped : Str := "a: \"\x10AN\"".toList

/-- The state that a scan keeps of an escaped value gives the decoded one. -/
theorem collects_derived_escaped : ∃ parsed state, parse .localisation escaped = some parsed ∧
    KeptOf parsed state ∧ collectFile ⟨0, [], some state⟩ [] =
      (localisationPreviewsFromParsed parsed).map fun entries =>
        .ok (entries.map fun entry => ((0, entry.1), entry.2)) := by
  obtain ⟨parsed, hparse⟩ := Option.isSome_iff_exists.mp
    (by decide +kernel : (parse .localisation escaped).isSome = true)
  have hroot : (parse .localisation escaped).bind ParsedFile.root ≠ none := by decide +kernel
  rw [hparse, Option.bind_some] at hroot
  obtain ⟨root, hroot⟩ := Option.ne_none_iff_exists'.mp hroot
  obtain ⟨state, hstate⟩ : ∃ state, (FileState.built parsed).cacheOnly = some state := by
    rw [FileState.cacheOnly_built, localisationPreviewsFromParsed_eq (parse_format hparse), hroot]
    exact ⟨_, rfl⟩
  obtain ⟨hkept, -, -, happend⟩ := collects_derived hparse 0 [] []
  exact ⟨parsed, state, hparse, .load hstate,
    happend (by decide) ⟨.nil, by simp⟩ _ rfl (hkept state (.load hstate))⟩

/-- The previews of an escaped value differ. -/
theorem not_previewsAgree : ¬∀ source parsed, parse .localisation source = some parsed →
    PreviewsAgree 0 [] parsed [] := by
  intro h
  have hparse : (parse .localisation escaped).map (fun parsed =>
      (collectFile (resident 0 [] parsed) []).map fun collected =>
        collected.toOption.map fun entries => entries.map fun entry => entry.2.value) =
      some (some (some [['\x10', 'A', 'N']])) := by decide +kernel
  have hderived : (parse .localisation escaped).map (fun parsed =>
      (localisationPreviewsFromParsed parsed).map fun entries => entries.map fun entry =>
        entry.2.value) =
      some (some [[Char.ofNat 0x4E41]]) := by decide +kernel
  obtain ⟨parsed, hsome, hcollected⟩ := Option.map_eq_some_iff.mp hparse
  have hagree := h escaped parsed hsome
  unfold PreviewsAgree at hagree
  rw [hsome] at hderived
  obtain ⟨entries, hentries, hvalues⟩ := Option.map_eq_some_iff.mp (Option.some.inj hderived)
  rw [hagree, hentries] at hcollected
  simp only [Option.map_some, Except.toOption, List.nil_append, List.map_map] at hcollected
  rw [show ((fun entry : Entry => entry.2.value) ∘ fun entry => ((0, entry.1), entry.2)) =
    fun entry : TextRange × LocalisationPreview => entry.2.value from rfl, hvalues] at hcollected
  revert hcollected
  decide

end ParadoxCode.Engine.Previews
