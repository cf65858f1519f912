import ParadoxCode.Engine.SearchText
import ParadoxCode.Vfs.LogicalPaths

/-!
# What pruning loses

A text search is about the text files that the filters leave. It finds those of them that stand
below entered directories only. An exclude pattern `front/**` whose front has a separator excludes
all below the directories that it prunes (`ignoresFile_of_subtree`), and an include pattern leads to
the directories above the files that it matches (`leadsTo_of_matches`). Pruning changes a search for
`name/**` in the exclude patterns, which prunes every directory of that name, and for an include
pattern with its slashes at its end, whose literal front is below no directory
(`searchTexts_exact_iff`).
-/

namespace ParadoxCode.Engine

open ParadoxCode.Vfs

variable {query : TextQuery} {root : Nat} {directory names above : List Str} {entry : Entry}
  {entries : List Entry} {file : SearchTextFile}

/-- The text that the snapshot has for a file, or that it has on disk. -/
def DiskFile.current (content : DiskFile) : Str := content.indexed.getD content.text

/-- The size that counts for the limit on one file. -/
def DiskFile.currentSize (content : DiskFile) : Nat :=
  (content.indexed.map byteLen).getD content.size

/-- A directory above a path and below another directory. -/
def Above (directory names above : List Str) : Prop :=
  ∃ front back, front ≠ [] ∧ back ≠ [] ∧ above = directory ++ front ∧ names = above ++ back

theorem names_of_mem_filesAll (entries : List Entry) (directory : List Str) :
    ∀ found ∈ Entry.filesAll directory entries, ∃ back, back ≠ [] ∧
    found.1 = directory ++ back := by
  induction hsize : Entry.sizes entries using Nat.strong_induction_on generalizing entries
    directory with
  | _ size ih =>
    cases entries with
    | nil => simp [Entry.filesAll]
    | cons entry entries =>
      intro found hfound
      rw [Entry.sizes] at hsize
      rw [Entry.filesAll] at hfound
      have hpos := entry.size_pos
      rcases List.mem_append.mp hfound with hfound | hfound
      · cases entry with
        | file name content =>
          rw [Entry.files, List.mem_singleton] at hfound
          rw [hfound]
          exact ⟨[name], List.cons_ne_nil _ _, rfl⟩
        | directory name below =>
          rw [Entry.size] at hsize
          rw [Entry.files] at hfound
          obtain ⟨back, -, hback⟩ := ih _ (by omega) below (directory ++ [name]) rfl found hfound
          exact ⟨name :: back, List.cons_ne_nil _ _, by rw [hback, List.append_assoc]; rfl⟩
      · exact ih _ (by omega) entries directory rfl found hfound

/-- Directories above what lies below a subdirectory. -/
theorem above_iff {name : Str} {back : List Str} (hback : back ≠ [])
    (hnames : names = directory ++ [name] ++ back) :
    Above directory names above ↔ above = directory ++ [name] ∨
    Above (directory ++ [name]) names above := by
  constructor
  · rintro ⟨front, rest, hfront, hrest, rfl, hsplit⟩
    obtain ⟨first, front, rfl⟩ := List.exists_cons_of_ne_nil hfront
    rw [hnames] at hsplit
    simp only [List.append_assoc, List.cons_append, List.nil_append, List.append_cancel_left_eq,
      List.cons.injEq] at hsplit
    obtain ⟨rfl, hsplit⟩ := hsplit
    cases front with
    | nil => exact Or.inl rfl
    | cons second front =>
      refine Or.inr ⟨second :: front, rest, List.cons_ne_nil _ _, hrest, by simp, ?_⟩
      rw [hnames, hsplit]
      simp
  · rintro (rfl | ⟨front, rest, hfront, hrest, rfl, hsplit⟩)
    · exact ⟨[name], back, List.cons_ne_nil _ _, hback, rfl, hnames⟩
    · exact ⟨name :: front, rest, List.cons_ne_nil _ _, hrest, by simp, hsplit⟩

/-- The search takes the file with this content, once the walk is there. -/
structure Takes (query : TextQuery) (root : Nat) (file : SearchTextFile)
    (content : DiskFile) : Prop where
  root : file.root = root
  path : searchPath file.names = some file.path
  skips : query.skipsFile file.path = false
  text : textOf query file.names content = some file.text

/-- The walk finds a file that is taken where every directory above it is entered. -/
theorem mem_foundAll_iff (entries : List Entry) (directory : List Str) :
    file ∈ Entry.foundAll query root directory entries ↔
      ∃ content, (file.names, content) ∈ Entry.filesAll directory entries ∧
        Takes query root file content ∧ ∀ above, Above directory file.names above →
        Enters query above := by
  induction hsize : Entry.sizes entries using Nat.strong_induction_on generalizing entries
    directory with
  | _ size ih =>
    cases entries with
    | nil => simp [Entry.foundAll, Entry.filesAll]
    | cons entry entries =>
      rw [Entry.sizes] at hsize
      have hpos := entry.size_pos
      have hrest := ih _ (by omega) entries directory rfl
      have hentry : file ∈ entry.found query root directory ↔
          ∃ content, (file.names, content) ∈ entry.files directory ∧ Takes query root file content ∧
            ∀ above, Above directory file.names above → Enters query above := by
        cases entry with
        | file name content =>
          have hnone : ∀ above, ¬ Above directory (directory ++ [name]) above := by
            rintro above ⟨front, back, hfront, hback, rfl, hsplit⟩
            have hlength := congrArg List.length hsplit
            have := List.length_pos_iff.mpr hfront
            have := List.length_pos_iff.mpr hback
            simp only [List.length_append, List.length_singleton] at hlength
            omega
          rw [Entry.found, Entry.files]
          simp only [List.mem_singleton, Prod.mk.injEq]
          constructor
          · intro h
            split at h
            · cases h
            · rename_i logical hpath
              split_ifs at h with hskip
              · cases h
              · obtain ⟨text, htext, rfl⟩ := List.mem_map.mp h
                exact ⟨content, ⟨rfl, rfl⟩, ⟨rfl, hpath, by simpa using hskip,
                  Option.mem_toList.mp htext⟩, fun above habove => absurd habove (hnone above)⟩
          · rintro ⟨content, ⟨hnames, rfl⟩, htakes, -⟩
            have hpath := htakes.path
            have htext := htakes.text
            rw [hnames] at hpath htext
            rw [hpath]
            dsimp only
            rw [htakes.skips, htext]
            obtain ⟨root', path, names, text⟩ := file
            obtain rfl : names = directory ++ [name] := hnames
            obtain rfl : root' = root := htakes.root
            exact List.mem_singleton_self _
        | directory name below =>
          rw [Entry.size] at hsize
          have hbelow := ih _ (by omega) below (directory ++ [name]) rfl
          rw [Entry.found, Entry.files]
          constructor
          · intro h
            split at h
            · cases h
            · rename_i logical hpath
              split_ifs at h with hskip
              · cases h
              · obtain ⟨content, hfile, htakes, henters⟩ := hbelow.mp h
                obtain ⟨back, hback, hnames⟩ := names_of_mem_filesAll _ _ _ hfile
                refine ⟨content, hfile, htakes, fun above habove => ?_⟩
                rcases (above_iff hback hnames).mp habove with rfl | habove
                · exact ⟨logical, hpath, by simpa using hskip⟩
                · exact henters above habove
          · rintro ⟨content, hfile, htakes, henters⟩
            obtain ⟨back, hback, hnames⟩ := names_of_mem_filesAll _ _ _ hfile
            obtain ⟨logical, hpath, hskip⟩ := henters _ ((above_iff hback hnames).mpr (Or.inl rfl))
            rw [hpath]
            dsimp only
            rw [hskip]
            refine hbelow.mpr ⟨content, hfile, htakes, fun above habove => henters above ?_⟩
            exact (above_iff hback hnames).mpr (Or.inr habove)
      rw [Entry.foundAll, Entry.filesAll, List.mem_append, hentry, hrest]
      simp only [List.mem_append, or_and_right, exists_or]

/-! ## What the search is about -/

/-- A text file that the filters leave. -/
structure Sought (query : TextQuery) (file : SearchTextFile) (content : DiskFile) : Prop where
  path : searchPath file.names = some file.path
  kind : extension (file.names.getLastD []) ∉ binaryExtensions
  current : content.current = file.text
  text : Char.ofNat 0 ∉ file.text
  scan : query.scanFilters.ignoresFile file.path = false
  excluded : query.excluded.ignoresFile file.path = false
  included : query.included.ignoreFilePatterns = [] ∨ query.included.ignoresFile file.path = true

/-- A file of the roots that the search is about. -/
def Wanted (query : TextQuery) (roots : List SourceRoot) (file : SearchTextFile) : Prop :=
  ∃ root ∈ roots, file.root = root.id ∧
    ∃ content, (file.names, content) ∈ Entry.filesAll [] root.entries ∧ Sought query file content

/-- The roots are within the count, depth and byte budgets. -/
structure WithinBudgets (query : TextQuery) (roots : List SourceRoot) : Prop where
  count : (roots.map fun root => Entry.sizes root.entries).sum ≤ query.limits.maxFiles
  bytes : (roots.map fun root => Entry.bytesAll query root.entries).sum ≤ searchTextBytes
  depth : ∀ root ∈ roots, Entry.heights root.entries ≤ query.limits.maxDepth
  file : ∀ root ∈ roots, ∀ found ∈ Entry.filesAll [] root.entries,
    extension (found.1.getLastD []) ∉ binaryExtensions → found.2.currentSize ≤ query.fileLimit

theorem readText_eq {content : DiskFile} (h : content.currentSize ≤ query.fileLimit) :
    query.readText content = some content.current := by
  unfold DiskFile.currentSize at h
  unfold TextQuery.readText DiskFile.current
  cases hindexed : content.indexed with
  | none =>
    rw [hindexed] at h
    exact if_neg (Nat.not_lt.mpr h)
  | some text =>
    rw [hindexed] at h
    exact if_neg (Nat.not_lt.mpr h)

variable {path : Str}

theorem skipsFile_eq_false_iff :
    query.skipsFile path = false ↔
      query.scanFilters.ignoresFile path = false ∧ query.excluded.ignoresFile path = false ∧
        (query.included.ignoreFilePatterns = [] ∨ query.included.ignoresFile path = true) := by
  unfold TextQuery.skipsFile
  rw [Bool.or_eq_false_iff, Bool.or_eq_false_iff, Bool.and_eq_false_iff, Bool.not_eq_false',
    Bool.not_eq_false', List.isEmpty_iff, and_assoc]

theorem takes_iff {content : DiskFile}
    (hsize : extension (file.names.getLastD []) ∉ binaryExtensions →
      content.currentSize ≤ query.fileLimit) :
    Takes query root file content ↔ file.root = root ∧ Sought query file content := by
  have htext : extension (file.names.getLastD []) ∉ binaryExtensions →
      (textOf query file.names content = some file.text ↔
        content.current = file.text ∧ Char.ofNat 0 ∉ file.text) := by
    intro hkind
    unfold textOf
    rw [if_neg hkind, readText_eq (hsize hkind), Option.filter_eq_some_iff, Option.some_inj]
    simp
  constructor
  · intro h
    have hkind : extension (file.names.getLastD []) ∉ binaryExtensions := by
      intro hbinary
      have hnone := h.text
      unfold textOf at hnone
      rw [if_pos hbinary] at hnone
      cases hnone
    obtain ⟨hcurrent, hnul⟩ := (htext hkind).mp h.text
    obtain ⟨hscan, hexcluded, hincluded⟩ := skipsFile_eq_false_iff.mp h.skips
    exact ⟨h.root, h.path, hkind, hcurrent, hnul, hscan, hexcluded, hincluded⟩
  · rintro ⟨hroot, h⟩
    exact ⟨hroot, h.path, skipsFile_eq_false_iff.mpr ⟨h.scan, h.excluded, h.included⟩,
      (htext h.kind).mpr ⟨h.current, h.text⟩⟩

/-! ## The search -/

theorem Entry.height_le_heights {limit : Nat} (h : Entry.heights entries ≤ limit) :
    ∀ entry ∈ entries, entry.height ≤ limit :=
  fun _ hentry => Nat.le_trans (Entry.height_le hentry) h

/-- The walk over the roots finds what the walk over each of them does. -/
theorem exists_walkRoots (roots : List SourceRoot) (walk : Walk) (hrunning : walk.stopped = false)
    (hstack : walk.stack = [])
    (hcount : walk.count + (roots.map fun root => Entry.sizes root.entries).sum ≤
      query.limits.maxFiles)
    (hbytes : walk.bytes + (roots.map fun root => Entry.bytesAll query root.entries).sum ≤
      searchTextBytes)
    (hdepth : ∀ root ∈ roots, Entry.heights root.entries ≤ query.limits.maxDepth) :
    ∃ final, roots.foldlM (fun walk root => walkRoot query root.id (Entry.sizes root.entries + 2)
        { walk with stack := [([], root.entries, 0)] }) walk = some final ∧
      ∀ file, file ∈ final.files ↔
        file ∈ walk.files ∨ ∃ root ∈ roots, file ∈ Entry.foundAll query root.id []
          root.entries := by
  induction roots generalizing walk with
  | nil => exact ⟨walk, rfl, fun file => by simp⟩
  | cons root roots ih =>
    rw [List.map_cons, List.sum_cons] at hcount hbytes
    have hroom : Room query { walk with stack := [([], root.entries, 0)] } [] 0 := by
      refine ⟨hrunning, ?_, ?_, fun entry hentry => ?_, fun pending hpending => ?_⟩
      · simp only [Entry.sizes, Pending.size, List.map_cons, List.map_nil,
          List.sum_cons, List.sum_nil]
        omega
      · simp only [Entry.bytesAll, Pending.bytes, List.map_cons, List.map_nil, List.sum_cons,
          List.sum_nil]
        omega
      · cases hentry
      · rw [List.mem_singleton.mp hpending]
        exact Entry.height_le_heights (hdepth root List.mem_cons_self)
    obtain ⟨next, hnext, hnextRoom, hempty, hfiles, hle, hble⟩ := exists_walkRoot root.id
      (Entry.sizes root.entries + 2) hroom (by simp [Pending.size])
    simp only [Pending.size, Pending.bytes, List.map_cons, List.map_nil, List.sum_cons,
      List.sum_nil] at hle hble
    obtain ⟨final, hfinal, hfound⟩ := ih next hnextRoom.running hempty (by omega) (by omega)
      fun root hroot => hdepth root (List.mem_cons_of_mem _ hroot)
    refine ⟨final, ?_, fun file => ?_⟩
    · rw [List.foldlM_cons, hnext]
      exact hfinal
    · rw [hfound, hfiles]
      unfold Walk.Finds
      simp only [List.mem_cons, List.not_mem_nil, or_false, exists_eq_left,
        exists_eq_or_imp, or_assoc]

/-- Within the budgets the search finds the wanted files below entered directories. -/
theorem mem_searchTexts_iff {selected : Option (List Nat)} {sourceRoots : List SourceRoot}
    (h : WithinBudgets query (selectedRoots selected sourceRoots)) :
    ∃ files, searchTexts query selected sourceRoots = some files ∧ ∀ file, file ∈ files ↔
      Wanted query (selectedRoots selected sourceRoots) file ∧
        ∀ above, Above [] file.names above → Enters query above := by
  obtain ⟨final, hfinal, hfiles⟩ := exists_walkRoots (selectedRoots selected sourceRoots)
    ⟨0, 0, [], [], false⟩ rfl rfl (by simpa using h.count) (by simpa using h.bytes) h.depth
  refine ⟨final.files.mergeSort sortsBefore, ?_, fun file => ?_⟩
  · unfold searchTexts walkRoots
    rw [hfinal]
    rfl
  · rw [List.mem_mergeSort, hfiles]
    simp only [List.not_mem_nil, false_or, mem_foundAll_iff]
    constructor
    · rintro ⟨root, hroot, content, hfile, htakes, henters⟩
      obtain ⟨hid, hsought⟩ := (takes_iff (h.file root hroot _ hfile)).mp htakes
      exact ⟨⟨root, hroot, hid, content, hfile, hsought⟩, henters⟩
    · rintro ⟨⟨root, hroot, hid, content, hfile, hsought⟩, henters⟩
      exact ⟨root, hroot, content, hfile, (takes_iff (h.file root hroot _ hfile)).mpr
        ⟨hid, hsought⟩, henters⟩

/-! ## Paths of ordinary names -/

/-- The text of a path. -/
def joined (names : List Str) : Str := ['/'].intercalate names

theorem joined_append {front back : List Str} (hfront : front ≠ []) (hback : back ≠ []) :
    joined (front ++ back) = joined front ++ '/' :: joined back :=
  intercalate_append hfront hback

theorem components_joined (h : ∀ name ∈ names, Plain name) (hne : names ≠ []) :
    components (joined names) = names :=
  components_intercalate (fun name hname => (h name hname).2.1) hne

theorem trimSlashes_joined (h : ∀ name ∈ names, Plain name) :
    trimSlashes (joined names) = joined names := by
  have hdrop : (joined names).dropWhile (fun c => c == '/') = joined names := by
    cases names with
    | nil => rfl
    | cons first names =>
      have hfirst := h first List.mem_cons_self
      obtain ⟨c, text, rfl⟩ := List.exists_cons_of_ne_nil hfirst.1
      have hc : ¬ (c == '/') = true := fun heq => hfirst.2.1
        (by rw [eq_of_beq heq]; exact List.mem_cons_self)
      unfold joined
      cases names with
      | nil => exact List.dropWhile_cons_of_neg hc
      | cons second names =>
        rw [List.intercalate_cons_cons, List.append_assoc, List.cons_append]
        exact List.dropWhile_cons_of_neg hc
  have hlast : ∀ c ∈ (joined names).getLast?, ¬ (c == '/') = true := by
    rcases List.eq_nil_or_concat names with rfl | ⟨front, name, rfl⟩
    · rintro c ⟨⟩
    · have hname := h name (by simp)
      have hjoined : ∃ start, joined (front.concat name) = start ++ name := by
        rw [List.concat_eq_append]
        by_cases hfront : front = []
        · rw [hfront]
          exact ⟨[], by simp [joined]⟩
        · rw [joined_append hfront (List.cons_ne_nil _ _)]
          exact ⟨joined front ++ ['/'], by simp [joined]⟩
      obtain ⟨start, hstart⟩ := hjoined
      intro c hc heq
      rw [hstart, List.getLast?_append_of_ne_nil _ hname.1] at hc
      exact hname.2.1 (eq_of_beq heq ▸ List.mem_of_getLast? hc)
  unfold trimSlashes trimEndSlashes
  rw [hdrop]
  rcases List.eq_nil_or_concat (joined names) with hnil | ⟨front, c, hconcat⟩
  · rw [hnil]
    rfl
  · rw [hconcat, List.concat_eq_append] at hlast ⊢
    exact List.rdropWhile_concat_neg _ _ _ (hlast c (by simp))

theorem parse_joined (h : ∀ name ∈ names, Ordinary name) {logical : Str} :
    parseLogicalPath (joined names) = .ok logical ↔
      (∀ name ∈ names, Char.ofNat 0 ∉ name) ∧ logical = joined names := by
  rw [parse_eq_ok_iff]
  unfold joined
  rw [segments_intercalate fun name hname => (h name hname).1, foldSegments_of_ordinary h]
  simp

theorem searchPath_joined (h : ∀ name ∈ names, Ordinary name) {logical : Str} :
    searchPath names = some logical ↔ (∀ name ∈ names, Char.ofNat 0 ∉ name) ∧
      sourceMetadata (joined names) = false ∧ logical = joined names := by
  unfold searchPath
  split
  · rename_i error hparse
    refine iff_of_false (fun hnone => by cases hnone) fun hlogical => ?_
    have hok := (parse_joined h).mpr ⟨hlogical.1, rfl⟩
    exact absurd (hparse.symm.trans hok) (by simp)
  · rename_i other hparse
    obtain ⟨hnul, rfl⟩ := (parse_joined h).mp hparse
    rw [and_iff_right hnul]
    split_ifs with hmetadata
    · rw [hmetadata]
      exact iff_of_false (fun h => by cases h) fun h => by cases h.1
    · rw [Option.some_inj, and_iff_right (by simpa using hmetadata)]
      exact eq_comm

/-- A path that an entry has is made of components. -/
theorem trimSlashes_of_searchPath (h : searchPath names = some path) : trimSlashes path = path := by
  unfold searchPath at h
  split at h
  · cases h
  · rename_i logical hparse
    split_ifs at h
    cases h
    obtain ⟨htext, hplain⟩ := parse_spec hparse
    rw [htext]
    exact trimSlashes_joined hplain

/-- A directory above a file that is found has a path. -/
theorem searchPath_above {front back : List Str} (h : ∀ name ∈ front ++ back, Ordinary name)
    (hfront : front ≠ []) (hback : back ≠ []) (hpath : searchPath (front ++ back) = some path) :
    searchPath front = some (joined front) ∧ path = joined front ++ '/' :: joined back := by
  obtain ⟨hnul, hmetadata, rfl⟩ := (searchPath_joined h).mp hpath
  have hordinary : ∀ name ∈ front, Ordinary name := fun name hname =>
    h name (List.mem_append_left _ hname)
  refine ⟨(searchPath_joined hordinary).mpr ⟨fun name hname =>
    hnul name (List.mem_append_left _ hname), ?_, rfl⟩, joined_append hfront hback⟩
  unfold sourceMetadata at hmetadata ⊢
  rw [components_joined (fun name hname => (h name hname).1) (by simp [hfront]), List.any_append,
    Bool.or_eq_false_iff] at hmetadata
  rw [components_joined (fun name hname => (hordinary name hname).1) hfront]
  exact hmetadata.1

/-! ## Exclude patterns -/

/-- The patterns that normalization leaves. -/
theorem foldlM_normalizeNext (kind : String) (patterns : List Str) : ∀ {before after : List Str},
    patterns.foldlM (normalizeNext kind) before = .ok after →
      after.length ≤ before.length + patterns.length ∧ ∀ pattern, pattern ∈ after ↔
        pattern ∈ before ∨ pattern ≠ [] ∧ ∃ raw ∈ patterns, normalizePattern raw = pattern := by
  induction patterns with
  | nil =>
    intro before after h
    cases h
    simp
  | cons raw patterns ih =>
    intro before after h
    rw [List.foldlM_cons] at h
    unfold normalizeNext at h
    split_ifs at h with hlong hnul
    · cases h
    · cases h
    · obtain ⟨hlength, hmem⟩ := ih h
      refine ⟨?_, fun pattern => ?_⟩
      · rw [List.length_cons]
        split_ifs at hlength
        · rw [List.length_append, List.length_singleton] at hlength
          omega
        · omega
      · rw [hmem, List.exists_mem_cons_iff]
        split_ifs with hnew
        · rw [List.mem_append, List.mem_singleton, or_assoc]
          grind
        · grind

theorem foldlM_normalizeNext_ok (kind : String) (patterns : List Str) : ∀ before : List Str,
    (∃ after, patterns.foldlM (normalizeNext kind) before = .ok after) ↔
      ∀ raw ∈ patterns, raw.length ≤ maxPatternLength ∧ Char.ofNat 0 ∉ raw := by
  induction patterns with
  | nil => exact fun before => iff_of_true ⟨before, rfl⟩ fun _ h => absurd h List.not_mem_nil
  | cons raw patterns ih =>
    intro before
    rw [List.forall_mem_cons, List.foldlM_cons]
    unfold normalizeNext
    split_ifs with hlong hnul
    · exact iff_of_false (by rintro ⟨after, ⟨⟩⟩) fun h => absurd h.1.1 (Nat.not_le.mpr hlong)
    · exact iff_of_false (by rintro ⟨after, ⟨⟩⟩) fun h => h.1.2 hnul
    · rw [and_iff_right ⟨Nat.le_of_not_lt hlong, hnul⟩]
      exact ih _

theorem normalizePattern_spec (raw : Str) :
    (normalizePattern raw).length ≤ raw.length ∧ (normalizePattern raw).head? ≠ some '/' ∧
      (Char.ofNat 0 ∈ normalizePattern raw → Char.ofNat 0 ∈ raw) := by
  obtain ⟨start, hnormal, hsub⟩ : ∃ start : Str, normalizePattern raw =
    start.dropWhile (fun c => c == '/') ∧
      start.Sublist (raw.map fun c => if c = '\\' then '/' else c) := by
    unfold normalizePattern
    refine ⟨_, rfl, ?_⟩
    split
    · rename_i rest hmapped
      rw [hmapped]
      exact (List.sublist_cons_self _ _).trans (List.sublist_cons_self _ _)
    · exact List.Sublist.refl _
  rw [hnormal]
  refine ⟨?_, fun hslash => ?_, fun hnul => ?_⟩
  · have hdrop : (start.dropWhile fun c => c == '/').Sublist start := List.dropWhile_sublist _
    have hlength := (hdrop.trans hsub).length_le
    rwa [List.length_map] at hlength
  · have hhead := List.head?_dropWhile_not (fun c => c == '/') start
    rw [hslash] at hhead
    cases hhead
  · obtain ⟨c, hc, heq⟩ := List.mem_map.mp (hsub.subset ((List.dropWhile_sublist _).subset hnul))
    split_ifs at heq
    · exact absurd heq (by decide)
    · exact heq ▸ hc

/-- The include and exclude patterns are what `WorkspaceScanFilters::new` makes of lists. -/
structure Asked (query : TextQuery) : Prop where
  included : ∃ files directories, WorkspaceScanFilters.new files directories = .ok query.included
  excluded : ∃ files directories, WorkspaceScanFilters.new files directories = .ok query.excluded

/-- What `WorkspaceScanFilters::new` makes of patterns for files. -/
theorem new_files_spec {files directories : List Str} {filters : WorkspaceScanFilters}
    (h : WorkspaceScanFilters.new files directories = .ok filters) :
    filters.ignoreFilePatterns.length ≤ maxPatterns ∧ ∀ pattern ∈ filters.ignoreFilePatterns,
      Normal pattern ∧ pattern.length ≤ maxPatternLength ∧ Char.ofNat 0 ∉ pattern := by
  unfold WorkspaceScanFilters.new at h
  rcases hfiles : normalizePatterns files "file" with error | normalized
  · rw [hfiles] at h
    cases h
  rw [hfiles] at h
  rcases hdirectories : normalizePatterns directories "directory" with error | others
  · rw [hdirectories] at h
    cases h
  rw [hdirectories] at h
  cases h
  unfold normalizePatterns at hfiles
  split_ifs at hfiles with hmany
  obtain ⟨hlength, hmem⟩ := foldlM_normalizeNext "file" files hfiles
  have hraw := (foldlM_normalizeNext_ok "file" files []).mp ⟨normalized, hfiles⟩
  refine ⟨hlength.trans (by simpa using hmany), fun pattern hpattern => ?_⟩
  obtain ⟨hne, raw, hmemRaw, rfl⟩ := ((hmem pattern).mp hpattern).resolve_left List.not_mem_nil
  obtain ⟨hle, hhead, hnul⟩ := normalizePattern_spec raw
  obtain ⟨hshort, hclean⟩ := hraw raw hmemRaw
  exact ⟨⟨hne, hhead⟩, hle.trans hshort, fun h => hclean (hnul h)⟩

variable {pattern : Str}

theorem stripDoubleStar_eq_some {front : Str} (h : stripDoubleStar pattern = some front) :
    pattern = front ++ "/**".toList := by
  unfold stripDoubleStar at h
  split_ifs at h with hsuffix
  obtain ⟨start, rfl⟩ := List.isSuffixOf_iff_suffix.mp hsuffix
  obtain rfl := Option.some.inj h
  rw [List.length_append]
  exact congrArg (· ++ _) (List.take_left' rfl).symm

theorem sublist_of_stripDoubleStar {front : Str} (h : stripDoubleStar pattern = some front) :
    front.Sublist pattern := by
  rw [stripDoubleStar_eq_some h]
  exact List.sublist_append_left _ _

/-- The directories that are excluded: the exclude patterns for all below, without their `/**`. -/
theorem excludedDirectories_iff (h : Asked query) :
    query.excludedDirectories.ignoresDirectory path = true ↔
      ∃ pattern ∈ query.excluded.ignoreFilePatterns, ∃ front, stripDoubleStar pattern = some front ∧
        patternMatches (normalizePattern front) path true = true := by
  obtain ⟨_, _, hfilters⟩ := h.excluded
  obtain ⟨hlength, hpattern⟩ := new_files_spec hfilters
  have hmany : ¬ maxPatterns < (query.excluded.ignoreFilePatterns.filterMap
    stripDoubleStar).length :=
    Nat.not_lt.mpr ((List.length_filterMap_le _ _).trans hlength)
  have hclean : ∀ front ∈ query.excluded.ignoreFilePatterns.filterMap stripDoubleStar,
      front.length ≤ maxPatternLength ∧ Char.ofNat 0 ∉ front := by
    intro front hfront
    obtain ⟨pattern, hmem, hstrip⟩ := List.mem_filterMap.mp hfront
    obtain ⟨-, hshort, hnul⟩ := hpattern pattern hmem
    have hsub := sublist_of_stripDoubleStar hstrip
    exact ⟨hsub.length_le.trans hshort, fun h => hnul (hsub.subset h)⟩
  obtain ⟨directories, hfold⟩ := (foldlM_normalizeNext_ok "directory" _ []).mpr hclean
  have hnew : query.excludedDirectories = ⟨[], directories⟩ := by
    unfold TextQuery.excludedDirectories WorkspaceScanFilters.new normalizePatterns
    rw [if_neg (by simp), if_neg hmany, hfold]
    rfl
  rw [hnew]
  unfold WorkspaceScanFilters.ignoresDirectory
  simp only [List.any_eq_true, (foldlM_normalizeNext "directory" _ hfold).2,
    List.not_mem_nil, false_or, List.mem_filterMap]
  constructor
  · rintro ⟨_, ⟨-, front, ⟨pattern, hmem, hstrip⟩, rfl⟩, hmatches⟩
    exact ⟨pattern, hmem, front, hstrip, hmatches⟩
  · rintro ⟨pattern, hmem, front, hstrip, hmatches⟩
    refine ⟨_, ⟨fun hnil => ?_, front, ⟨pattern, hmem, hstrip⟩, rfl⟩, hmatches⟩
    rw [hnil] at hmatches
    cases hmatches

/-- What stands in front of `/**`. -/
def Subtree (front : Str) : Prop := '/' ∈ front ∧ front.getLast? ≠ some '/' ∧
    normalizePattern front = front

theorem trimEndSlashes_eq_self {text : Str} (h : text.getLast? ≠ some '/') :
    trimEndSlashes text = text := by
  unfold trimEndSlashes
  rcases List.eq_nil_or_concat text with rfl | ⟨front, c, rfl⟩
  · rfl
  · rw [List.concat_eq_append] at h ⊢
    refine List.rdropWhile_concat_neg _ _ _ fun hc => h ?_
    rw [List.getLast?_concat, eq_of_beq hc]

/-- The path of the directory stands above the path. -/
def Covers (directory path : Str) : Prop := ∃ rest, path = directory ++ '/' :: rest

theorem Covers.components {directory path : Str} (h : Covers directory path) :
    ∃ below, Vfs.components path = Vfs.components directory ++ below := by
  obtain ⟨rest, rfl⟩ := h
  exact ⟨_, List.splitOn_append_cons_self directory rest⟩

/-- A pattern for all below a directory with a separator in its path excludes what its directory
prunes. -/
theorem ignoresFile_of_subtree (h : Asked query) {front directory : Str}
    (hmem : pattern ∈ query.excluded.ignoreFilePatterns)
    (hstrip : stripDoubleStar pattern = some front)
    (hsubtree : Subtree front) (hdirectory : trimSlashes directory = directory)
    (hpath : trimSlashes path = path) (hcovers : Covers directory path)
    (hmatches : patternMatches (normalizePattern front) directory true = true) :
    query.excluded.ignoresFile path = true := by
  obtain ⟨_, _, hfilters⟩ := h.excluded
  have hnormal : Normal pattern := ((new_files_spec hfilters).2 pattern hmem).1
  obtain ⟨hslash, hlast, hfixed⟩ := hsubtree
  have hfront : Normal front := by
    refine ⟨List.ne_nil_of_mem hslash, ?_⟩
    have hhead := (normalizePattern_spec front).2.1
    rwa [hfixed] at hhead
  -- the directory is read by the front, so the file is by the front and `**`
  have hreads := ((patternMatches_iff hfront true).mp (hfixed ▸ hmatches)).1
  unfold DescribedLiterally at hreads
  dsimp only at hreads
  rw [trimEndSlashes_eq_self hlast, if_pos hslash, hdirectory] at hreads
  obtain rfl := stripDoubleStar_eq_some hstrip
  have hend : trimEndSlashes (front ++ "/**".toList) = front ++ "/**".toList :=
    trimEndSlashes_eq_self (by rw [List.getLast?_append_of_ne_nil _ (by decide)]; decide)
  have hcomponents : components (front ++ "/**".toList) = components front ++ [doubleStar] :=
    List.splitOn_append_cons_self front doubleStar
  obtain ⟨below, hbelow⟩ := hcovers.components
  have hbelowReads : ReadsPath [doubleStar] below :=
    (@Wildcard.matches_star _ _ (fun part => part = doubleStar) _ doubleStar [] below rfl).mpr
      ⟨below, [], (List.append_nil _).symm, rfl⟩
  have hdescribed : DescribedLiterally (front ++ "/**".toList) path := by
    unfold DescribedLiterally
    dsimp only
    rw [hend, if_pos (List.mem_append_left _ hslash), hpath, hbelow, hcomponents]
    exact hbelowReads.append hreads
  unfold WorkspaceScanFilters.ignoresFile
  rw [Bool.or_eq_true, List.any_eq_true]
  exact .inl ⟨_, hmem, (patternMatches_iff hnormal false).mpr ⟨hdescribed, fun h => by cases h.1⟩⟩

/-! ## Include patterns -/

/-- A part without wildcards. -/
def literalPart (part : Str) : Bool := !part.any fun c => c == '*' || c == '?'

/-- The leading parts without wildcards. -/
def literalParts (pattern : Str) : List Str := (components pattern).takeWhile literalPart

/-- A pattern without a separator leads everywhere; any other one leads to the directories above its
literal front and below it. -/
def LeadsTo (pattern directory : Str) : Prop :=
  '/' ∉ pattern ∨ literalParts pattern <+: components directory ∨
    components directory <+: literalParts pattern

/-- The separators of the pattern stand at its end. -/
def SlashesAtEnd (pattern : Str) : Prop := '/' ∈ pattern ∧ '/' ∉ trimEndSlashes pattern

theorem isBelow_iff {directory : Str} : isBelow path directory = true ↔ Covers directory path := by
  unfold isBelow Covers
  rw [Bool.and_eq_true, List.isPrefixOf_iff_prefix]
  constructor
  · rintro ⟨⟨rest, rfl⟩, hrest⟩
    rw [List.drop_left, beq_iff_eq] at hrest
    obtain ⟨rest, rfl⟩ := List.head?_eq_some_iff.mp hrest
    exact ⟨rest, rfl⟩
  · rintro ⟨rest, rfl⟩
    exact ⟨List.prefix_append _ _, by rw [List.drop_left]; rfl⟩

theorem joined_components (text : Str) : joined (components text) = text :=
  List.intercalate_splitOn '/'

/-- A path is above another one if its components are the first ones. -/
theorem covers_iff {directory : Str} :
    path = directory ∨ Covers directory path ↔ components directory <+: components path := by
  constructor
  · rintro (rfl | hcovers)
    · exact List.prefix_rfl
    · obtain ⟨below, hbelow⟩ := hcovers.components
      exact ⟨below, hbelow.symm⟩
  · rintro ⟨below, hbelow⟩
    rw [← joined_components path, ← joined_components directory, ← hbelow]
    by_cases hnil : below = []
    · exact .inl (by rw [hnil, List.append_nil])
    · exact .inr ⟨_, joined_append (List.splitOn_ne_nil _ _) hnil⟩

/-- The first component of a pattern is not empty. -/
theorem head_literalParts (h : Normal pattern) : (literalParts pattern).head? ≠ some [] := by
  intro hhead
  have hfirst : (components pattern).head? = some [] := by
    unfold literalParts at hhead
    cases hcomponents : components pattern with
    | nil => exact absurd hcomponents (List.splitOn_ne_nil '/' pattern)
    | cons part parts =>
      rw [hcomponents, List.takeWhile_cons] at hhead
      split_ifs at hhead
      · exact hhead
      · cases hhead
  obtain ⟨c, text, rfl⟩ := List.exists_cons_of_ne_nil h.nonempty
  unfold components at hfirst
  rw [List.splitOn_cons_eq_if_modifyHead] at hfirst
  split_ifs at hfirst with hc
  · exact h.relative (congrArg some (eq_of_beq hc))
  · obtain ⟨part, parts, hsplit⟩ := List.exists_cons_of_ne_nil (List.splitOn_ne_nil '/' text)
    rw [hsplit] at hfirst
    cases hfirst

/-- The literal front of a pattern leads to a directory as its parts do. -/
theorem leads_iff {directory : Str} (hpattern : Normal pattern) :
    ((literalPrefix pattern).isEmpty || literalPrefix pattern == directory ||
      isBelow (literalPrefix pattern) directory || isBelow directory (literalPrefix pattern)) =
        true ↔
    literalParts pattern <+: components directory ∨
      components directory <+: literalParts pattern := by
  have hfront : literalPrefix pattern = joined (literalParts pattern) := rfl
  by_cases hnil : literalParts pattern = []
  · rw [hfront, hnil]
    exact iff_of_true rfl (.inl List.nil_prefix)
  have hslash : ∀ part ∈ literalParts pattern, '/' ∉ part := fun part hpart =>
    slash_not_mem_components ((List.takeWhile_sublist _).subset hpart)
  have hparts : components (literalPrefix pattern) = literalParts pattern :=
    components_intercalate hslash hnil
  have hnonempty : literalPrefix pattern ≠ [] := by
    intro hempty
    rw [hempty] at hparts
    exact head_literalParts hpattern (by rw [← hparts]; rfl)
  rw [Bool.or_eq_true, Bool.or_eq_true, Bool.or_eq_true, isBelow_iff, isBelow_iff, List.isEmpty_iff,
    beq_iff_eq, or_iff_right hnonempty, ← hparts, ← covers_iff, ← covers_iff]
  constructor
  · rintro ((hsame | hbelow) | habove)
    · exact .inr (.inl hsame)
    · exact .inr (.inr hbelow)
    · exact .inl (.inr habove)
  · rintro ((hsame | habove) | (hsame | hbelow))
    · exact .inl (.inl hsame.symm)
    · exact .inr habove
    · exact .inl (.inl hsame)
    · exact .inl (.inr hbelow)

theorem directoryCanMatch_iff {patterns : List Str} {directory : Str}
    (hpatterns : ∀ pattern ∈ patterns, Normal pattern) :
    directoryCanMatch patterns directory = true ↔
      patterns = [] ∨ ∃ pattern ∈ patterns, LeadsTo pattern directory := by
  unfold directoryCanMatch
  rw [Bool.or_eq_true, List.isEmpty_iff, List.any_eq_true]
  refine or_congr_right (exists_congr fun pattern => and_congr_right fun hmem => ?_)
  unfold LeadsTo
  by_cases hslash : '/' ∈ pattern
  · rw [if_neg (not_not.mpr hslash), or_iff_right (not_not.mpr hslash)]
    exact leads_iff (hpatterns pattern hmem)
  · rw [if_pos hslash]
    exact iff_of_true rfl (.inl hslash)

/-- A component is read by a part without wildcards only if it is this part. -/
theorem eq_of_readsComponent {part : Str} (hpart : literalPart part = true) : ∀ {value : Str},
    ReadsComponent part value → value = part := by
  induction part with
  | nil => exact fun h => h
  | cons p part ih =>
    unfold literalPart at hpart
    rw [List.any_cons, Bool.not_or, Bool.and_eq_true, Bool.not_eq_true', Bool.or_eq_false_iff,
      beq_eq_false_iff_ne, beq_eq_false_iff_ne] at hpart
    intro value h
    cases value with
    | nil => exact absurd h.1 hpart.1.1
    | cons c value =>
      rcases h with ⟨hmark | rfl, h⟩ | ⟨-, hstar, -⟩
      · exact absurd hmark hpart.1.2
      · rw [ih hpart.2 h]
      · exact absurd hstar hpart.1.1

/-- A path that a pattern reads begins with its literal parts, and ends with them if there are no
others. -/
theorem exists_literal {parts : List Str} : ∀ {path : List Str}, ReadsPath parts path →
    ∃ rest, path = parts.takeWhile literalPart ++ rest ∧
    (parts.takeWhile literalPart = parts → rest = []) := by
  induction parts with
  | nil => exact fun {path} h => ⟨[], by rw [show path = [] from h]; rfl, fun _ => rfl⟩
  | cons part parts ih =>
    intro path h
    rw [List.takeWhile_cons]
    split_ifs with hpart
    · have hnot : part ≠ doubleStar := by
        rintro rfl
        exact absurd hpart (by decide)
      obtain ⟨component, rest, rfl, hcomponent, hrest⟩ :=
        (@Wildcard.matches_one _ _ (fun part => part = doubleStar) _ part parts path hnot).mp h
      obtain ⟨more, rfl, hall⟩ := ih hrest
      rw [eq_of_readsComponent hpart hcomponent]
      exact ⟨more, rfl, fun heq => hall (List.cons.inj heq).2⟩
    · exact ⟨path, rfl, fun heq => by cases heq⟩

/-- A pattern that matches a file leads to the directories above it. -/
theorem leadsTo_of_matches {directory : Str} (hpattern : Normal pattern)
    (hpath : trimSlashes path = path) (hcovers : Covers directory path)
    (hmatches : patternMatches pattern path false = true) (hslash : ¬ SlashesAtEnd pattern) :
    LeadsTo pattern directory := by
  by_cases hseparator : '/' ∈ pattern
  swap
  · exact .inl hseparator
  refine .inr ?_
  have htrim : '/' ∈ trimEndSlashes pattern := by
    by_contra hnot
    exact hslash ⟨hseparator, hnot⟩
  have hreads := ((patternMatches_iff hpattern false).mp hmatches).1
  unfold DescribedLiterally at hreads
  dsimp only at hreads
  rw [if_pos htrim, hpath] at hreads
  obtain ⟨rest, hcomponents, hall⟩ := exists_literal hreads
  -- the parts of the pattern are those of the trimmed one, and what slashes at the end add
  obtain ⟨more, hmore⟩ : ∃ more, components pattern = components
    (trimEndSlashes pattern) ++ more := by
    have hsplit : trimEndSlashes pattern ++ pattern.rtakeWhile (fun c => c == '/') = pattern :=
      List.rdropWhile_append_rtakeWhile ..
    cases hslashes : pattern.rtakeWhile (fun c => c == '/') with
    | nil =>
      rw [hslashes, List.append_nil] at hsplit
      exact ⟨[], by rw [hsplit, List.append_nil]⟩
    | cons c slashes =>
      have hmem : c ∈ pattern.rtakeWhile fun c => c == '/' := by
        rw [hslashes]
        exact List.mem_cons_self
      have hc : (c == '/') = true := @List.mem_rtakeWhile_imp _ (fun c => c == '/') _ _ hmem
      rw [hslashes, eq_of_beq hc] at hsplit
      refine ⟨components slashes, ?_⟩
      conv_lhs => rw [← hsplit]
      exact List.splitOn_append_cons_self _ _
  obtain ⟨below, hbelow⟩ := hcovers.components
  have hfront : components directory <+: components path := ⟨below, hbelow.symm⟩
  unfold literalParts
  rw [hmore, List.takeWhile_append]
  split_ifs with hlength
  · have hwhole := (List.takeWhile_prefix literalPart).eq_of_length hlength
    rw [hall hwhole, List.append_nil, hwhole] at hcomponents
    rw [hcomponents] at hfront
    exact .inr (hfront.trans (List.prefix_append _ _))
  · exact List.prefix_or_prefix_of_prefix ⟨rest, hcomponents.symm⟩ hfront

/-! ## Pruning -/

/-- The patterns do not prune the directory. An exclude pattern prunes a directory above the file if
it has no subtree, and the include patterns do if only those with their separators at the end match
the file. -/
structure Unpruned (query : TextQuery) (path directory : Str) : Prop where
  scan : ¬ Covers directory path → query.scanFilters.ignoresDirectory directory = false
  excluded : ∀ pattern ∈ query.excluded.ignoreFilePatterns, ∀ front,
    stripDoubleStar pattern = some front → ¬ (Subtree front ∧ Covers directory path) →
      patternMatches (normalizePattern front) directory true = false
  included : query.included.ignoreFilePatterns ≠ [] →
    (∀ pattern ∈ query.included.ignoreFilePatterns, patternMatches pattern path false = true →
      Covers directory path → SlashesAtEnd pattern) →
    ∃ pattern ∈ query.included.ignoreFilePatterns, LeadsTo pattern directory

/-- The directory has a path that is not pruned. -/
def Reached (query : TextQuery) (path : Str) (names : List Str) : Prop :=
  ∃ directory, searchPath names = some directory ∧ Unpruned query path directory

/-- A directory is entered on the way to a sought file exactly where it is not pruned. -/
theorem enters_iff {content : DiskFile} (hasked : Asked query)
    (hsought : Sought query file content) : Enters query above ↔ Reached query file.path above := by
  unfold Enters Reached
  refine exists_congr fun directory => and_congr_right fun hdirectory => ?_
  have htrimmed := trimSlashes_of_searchPath hdirectory
  have hpath := trimSlashes_of_searchPath hsought.path
  obtain ⟨_, _, hfilters⟩ := hasked.included
  have hpatterns := (new_files_spec hfilters).2
  have hcan := @directoryCanMatch_iff query.included.ignoreFilePatterns directory
    fun pattern hpattern => (hpatterns pattern hpattern).1
  have hscan : Covers directory file.path → query.scanFilters.ignoresDirectory
    directory = false := by
    rintro ⟨rest, hrest⟩
    have hfile := hsought.scan
    unfold WorkspaceScanFilters.ignoresFile at hfile
    rw [Bool.or_eq_false_iff, hrest] at hfile
    simpa using List.any_eq_false.mp hfile.2 directory (mem_parents_append _ _)
  unfold TextQuery.skipsDirectory
  rw [Bool.or_eq_false_iff, Bool.or_eq_false_iff, Bool.not_eq_false', ← Bool.not_eq_true
    (query.excludedDirectories.ignoresDirectory directory), excludedDirectories_iff hasked, hcan]
  constructor
  · rintro ⟨⟨hignored, hexcluded⟩, hleads⟩
    refine ⟨fun _ => hignored, fun pattern hmem front hstrip _ => ?_,
      fun hne _ => hleads.resolve_left hne⟩
    by_contra hmatches
    exact hexcluded ⟨pattern, hmem, front, hstrip, by simpa using hmatches⟩
  · intro h
    refine ⟨⟨?_, ?_⟩, ?_⟩
    · by_cases hcovers : Covers directory file.path
      · exact hscan hcovers
      · exact h.scan hcovers
    · rintro ⟨pattern, hmem, front, hstrip, hmatches⟩
      by_cases hsubtree : Subtree front ∧ Covers directory file.path
      · have hignored := ignoresFile_of_subtree hasked hmem hstrip hsubtree.1 htrimmed hpath
          hsubtree.2 hmatches
        rw [hsought.excluded] at hignored
        cases hignored
      · rw [h.excluded pattern hmem front hstrip hsubtree] at hmatches
        cases hmatches
    · by_cases hne : query.included.ignoreFilePatterns = []
      · exact .inl hne
      · refine .inr ?_
        by_cases hends : ∀ pattern ∈ query.included.ignoreFilePatterns,
            patternMatches pattern file.path false = true → Covers directory file.path →
            SlashesAtEnd pattern
        · exact h.included hne hends
        · push Not at hends
          obtain ⟨pattern, hmem, hmatches, hcovers, hslash⟩ := hends
          exact ⟨pattern, hmem,
            leadsTo_of_matches (hpatterns pattern hmem).1 hpath hcovers hmatches hslash⟩

/-- The directories above a file with ordinary names stand above its path. -/
theorem covers_of_above (hordinary : ∀ name ∈ names, Ordinary name)
    (hpath : searchPath names = some path) (habove : Above [] names above) :
    ∃ directory, searchPath above = some directory ∧ Covers directory path := by
  obtain ⟨_, below, hne, hbelow, rfl, rfl⟩ := habove
  obtain ⟨hdirectory, htext⟩ := searchPath_above hordinary hne hbelow hpath
  exact ⟨_, hdirectory, _, htext⟩

/-- The search finds exactly the wanted files if and only if no directory above one of them is
pruned. -/
theorem searchTexts_exact_iff {query : TextQuery} {selected : Option (List Nat)}
    {sourceRoots : List SourceRoot}
    (hasked : Asked query) (h : WithinBudgets query (selectedRoots selected sourceRoots)) :
    ∃ files, searchTexts query selected sourceRoots = some files ∧
      ((∀ file, file ∈ files ↔ Wanted query (selectedRoots selected sourceRoots) file) ↔
        ∀ file, Wanted query (selectedRoots selected sourceRoots) file →
          ∀ above, Above [] file.names above → Reached query file.path above) := by
  obtain ⟨files, hfiles, hmem⟩ := mem_searchTexts_iff h
  have henters : ∀ file, Wanted query (selectedRoots selected sourceRoots) file →
      ∀ above, Enters query above ↔ Reached query file.path above := by
    rintro file ⟨root, hroot, -, content, hfile, hsought⟩ above
    exact enters_iff hasked hsought
  refine ⟨files, hfiles, fun hexact file hwanted above habove => ?_, fun hreached file => ?_⟩
  · exact (henters file hwanted above).mp
      (((hmem file).mp ((hexact file).mpr hwanted)).2 above habove)
  · rw [hmem]
    refine and_iff_left_of_imp fun hwanted above habove => ?_
    exact (henters file hwanted above).mpr (hreached file hwanted above habove)

/-- A root with the file `a/foo/x`. -/
def nestedRoot : SourceRoot :=
  ⟨0, [.directory ['a'] [.directory ['f', 'o', 'o'] [.file ['x'] ⟨2, ['h', 'i'], none⟩]]]⟩

/-- The search with one exclude pattern. -/
def excluding (pattern : String) : TextQuery :=
  ⟨.empty, ⟨8, 8, 8⟩, .empty, ⟨[pattern.toList], []⟩⟩

theorem excluding_within (pattern : String) :
    WithinBudgets (excluding pattern) (selectedRoots none [nestedRoot]) := by
  refine ⟨?_, ?_, ?_, ?_⟩
  · exact of_decide_eq_true rfl
  · exact of_decide_eq_true rfl
  · exact of_decide_eq_true rfl
  · exact of_decide_eq_true rfl

/-- A directory with the name of an excluded one is passed over at every depth, and the pattern is
about the one at the root. -/
theorem searchTexts_loses :
    ¬ ∀ query selected sourceRoots, WithinBudgets query (selectedRoots selected sourceRoots) →
      ∀ files, searchTexts query selected sourceRoots = some files →
        ∀ file, file ∈ files ↔ Wanted query (selectedRoots selected sourceRoots) file := by
  intro h
  obtain ⟨files, hfiles, hmem⟩ := mem_searchTexts_iff (excluding_within "foo/**")
  let file : SearchTextFile := ⟨0, "a/foo/x".toList, [['a'], ['f', 'o', 'o'], ['x']], ['h', 'i']⟩
  have hwanted : Wanted (excluding "foo/**") (selectedRoots none [nestedRoot]) file := by
    refine ⟨nestedRoot, List.mem_singleton_self _, rfl, ⟨2, ['h', 'i'], none⟩, by decide, ?_⟩
    refine ⟨by decide +kernel, by decide, rfl, by decide, by decide, by decide +kernel, Or.inl rfl⟩
  have hfound := (h _ _ _ (excluding_within "foo/**") files hfiles file).mpr hwanted
  obtain ⟨logical, hpath, hskips⟩ := ((hmem file).mp hfound).2 [['a'], ['f', 'o', 'o']]
    ⟨_, [['x']], List.cons_ne_nil _ _, List.cons_ne_nil _ _, rfl, rfl⟩
  have hlogical : searchPath [['a'], ['f', 'o', 'o']] = some "a/foo".toList := by decide +kernel
  rw [hlogical, Option.some_inj] at hpath
  have hprunes : (excluding "foo/**").skipsDirectory "a/foo".toList = true := by decide +kernel
  rw [← hpath, hprunes] at hskips
  cases hskips

/-- With the directory in the pattern it is searched. -/
theorem searchTexts_exact_iff_nested : ∃ files, searchTexts (excluding "b/foo/**") none
    [nestedRoot] = some files ∧
    ∀ file, file ∈ files ↔ Wanted (excluding "b/foo/**")
      (selectedRoots none [nestedRoot]) file := by
  have hordinary : ∀ root ∈ [nestedRoot], ∀ found ∈ Entry.filesAll [] root.entries,
      ∀ name ∈ found.1, Ordinary name := by
    unfold Ordinary Plain
    decide
  have hasked : Asked (excluding "b/foo/**") :=
    ⟨⟨[], [], rfl⟩, ⟨["b/foo/**".toList], [], by decide⟩⟩
  obtain ⟨files, hfiles, hexact⟩ := searchTexts_exact_iff hasked (excluding_within "b/foo/**")
  refine ⟨files, hfiles, hexact.mpr ?_⟩
  rintro file ⟨root, hroot, -, content, hfile, hsought⟩ above habove
  obtain ⟨directory, hdirectory, hcovers⟩ := covers_of_above (hordinary root hroot _ hfile)
    hsought.path habove
  refine ⟨directory, hdirectory, fun hnot => absurd hcovers hnot, ?_, fun hne => absurd rfl hne⟩
  intro pattern hmem front hstrip hsubtree
  obtain rfl := List.mem_singleton.mp hmem
  obtain rfl : "b/foo".toList = front := Option.some.inj hstrip
  exact absurd ⟨⟨by decide, by decide, by decide⟩, hcovers⟩ hsubtree

end ParadoxCode.Engine
