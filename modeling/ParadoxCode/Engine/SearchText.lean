import Mathlib.Data.Char
import Mathlib.Data.List.Lex
import ParadoxCode.Vfs.ScanFilters

/-!
# Text search

`search_text.rs`: the walk over the source roots that collects the files of a text search. Whole
directories are passed over by the scan filters, by the exclude patterns without their `/**` and by
the literal front of the include patterns. Within the budgets the walk finds every text file that no
directory above is passed over for.
-/

namespace ParadoxCode.Engine

open ParadoxCode.Vfs

/-! ## Files and directories -/

/-- A file: its text on disk with its size there, and the text that the snapshot has for it. -/
structure DiskFile where
  size : Nat
  text : Str
  indexed : Option Str
  deriving DecidableEq

/-- An entry of a directory, in the order that the system lists them. -/
inductive Entry where
  | file (name : Str) (file : DiskFile)
  | directory (name : Str) (entries : List Entry)

def Entry.name : Entry → Str
  | file name _ => name
  | directory name _ => name

/-- A source root with its entries. -/
structure SourceRoot where
  id : Nat
  entries : List Entry

/-- The limits of a scan that the walk reads. -/
structure WorkspaceScanLimits where
  maxDepth : Nat
  maxFiles : Nat
  maxFileSize : Nat
  deriving DecidableEq

/-- `SEARCH_TEXT_BYTES`. -/
def searchTextBytes : Nat := 128 * 1024 * 1024

/-- `SEARCH_FILE_BYTES`. -/
def searchFileBytes : Nat := 2 * 1024 * 1024

/-- A file of the search. -/
structure SearchTextFile where
  root : Nat
  path : Str
  names : List Str
  text : Str
  deriving DecidableEq

/-- What a search is asked: the filters of the workspace, its limits, and the include and exclude
patterns. -/
structure TextQuery where
  scanFilters : WorkspaceScanFilters
  limits : WorkspaceScanLimits
  included : WorkspaceScanFilters
  excluded : WorkspaceScanFilters

/-! ## Paths -/

def sourceMetadata (path : Str) : Bool :=
  (components path).any fun part =>
    part ∈ [".git".toList, ".hg".toList, ".svn".toList, ".pdc".toList]

/-- `strip_prefix(..).is_some_and(|rest| rest.starts_with('/'))`. -/
def isBelow (path directory : Str) : Bool :=
  directory.isPrefixOf path && (path.drop directory.length).head? == some '/'

/-- The leading parts of a pattern without wildcards. -/
def literalPrefix (pattern : Str) : Str :=
  ['/'].intercalate ((components pattern).takeWhile fun part => !part.any fun c =>
    c == '*' || c == '?')

def directoryCanMatch (patterns : List Str) (directory : Str) : Bool :=
  patterns.isEmpty || patterns.any fun pattern =>
    if '/' ∉ pattern then true
    else
      let literal := literalPrefix pattern
      literal.isEmpty || literal == directory || isBelow literal directory ||
        isBelow directory literal

/-- `pattern.strip_suffix("/**")`. -/
def stripDoubleStar (pattern : Str) : Option Str :=
  if "/**".toList.isSuffixOf pattern then some (pattern.take (pattern.length - 3)) else none

/-- `Path::extension`, in lower case. -/
def extension (name : Str) : Str :=
  if '.' ∈ name.drop 1 then ((name.reverse.takeWhile fun c => c != '.').reverse).map Char.toLower
  else []

/-- The extensions of known binary categories. -/
def binaryExtensions : List Str :=
  ["dds", "tga", "png", "jpg", "jpeg", "bmp", "webp", "ogg", "wav", "mp3", "ttf",
    "otf", "zip", "bin", "exe", "dll", "pdcindex", "sqlite", "db"].map String.toList

namespace TextQuery

variable (query : TextQuery)

/-- The limit on one file. -/
def fileLimit : Nat := min query.limits.maxFileSize searchFileBytes

/-- The exclude patterns that a directory can be excluded by. -/
def excludedDirectories : WorkspaceScanFilters :=
  match WorkspaceScanFilters.new [] (query.excluded.ignoreFilePatterns.filterMap
    stripDoubleStar) with
  | .ok filters => filters
  | .error _ => .empty

/-- The walk does not enter the directory. -/
def skipsDirectory (logical : Str) : Bool :=
  query.scanFilters.ignoresDirectory logical || query.excludedDirectories.ignoresDirectory
    logical || !directoryCanMatch query.included.ignoreFilePatterns logical

/-- The file is no subject of the search. -/
def skipsFile (logical : Str) : Bool :=
  query.scanFilters.ignoresFile logical || query.excluded.ignoresFile logical ||
    (!query.included.ignoreFilePatterns.isEmpty && !query.included.ignoresFile logical)

/-- The text of a file, if it is within the limit. -/
def readText (file : DiskFile) : Option Str :=
  match file.indexed with
  | some text => if query.fileLimit < byteLen text then none else some text
  | none => if query.fileLimit < file.size then none else some file.text

end TextQuery

/-! ## The walk -/

/-- The state of the walk. `stopped` is the way out of the loop over the roots; the stack is about
one root, and its last element comes first. -/
structure Walk where
  count : Nat
  bytes : Nat
  files : List SearchTextFile
  stack : List (List Str × List Entry × Nat)
  stopped : Bool

namespace Walk

/-- Counts an entry. -/
def counted (walk : Walk) (query : TextQuery) : Walk :=
  { walk with count := walk.count + 1, stopped := decide (query.limits.maxFiles < walk.count + 1) }

/-- Takes the text of a file. -/
def retain (walk : Walk) (file : SearchTextFile) : Walk :=
  let bytes := walk.bytes + byteLen file.text
  if searchTextBytes < bytes then { walk with bytes, stopped := true }
  else { walk with bytes, files := walk.files ++ [file] }

end Walk

/-- The file of an entry, where it has a text. -/
def textOf (query : TextQuery) (names : List Str) (file : DiskFile) : Option Str :=
  if extension (names.getLastD []) ∈ binaryExtensions then none
  else (query.readText file).filter fun text => !text.contains (Char.ofNat 0)

def visitDirectory (query : TextQuery) (names : List Str) (logical : Str) (entries : List Entry)
    (depth : Nat) (walk : Walk) : Walk :=
  if query.skipsDirectory logical then walk
  else
    let walk := walk.counted query
    if walk.stopped ∨ query.limits.maxDepth ≤ depth then walk
    else { walk with stack := (names, entries, depth + 1) :: walk.stack }

def visitFile (query : TextQuery) (root : Nat) (names : List Str) (logical : Str) (file : DiskFile)
    (walk : Walk) : Walk :=
  if query.skipsFile logical then walk
  else
    let walk := walk.counted query
    if walk.stopped then walk
    else
      match textOf query names file with
      | none => walk
      | some text => walk.retain ⟨root, logical, names, text⟩

/-- One entry of a directory. -/
def visitEntry (query : TextQuery) (root : Nat) (directory : List Str) (depth : Nat) (walk : Walk)
    (entry : Entry) : Walk :=
  if walk.stopped then walk
  else
    let names := directory ++ [entry.name]
    match parseLogicalPath (['/'].intercalate names) with
    | .error _ => walk
    | .ok logical =>
      if sourceMetadata logical then walk
      else
        match entry with
        | .directory _ entries => visitDirectory query names logical entries depth walk
        | .file _ file => visitFile query root names logical file walk

/-- The loop over the stack. -/
def walkRoot (query : TextQuery) (root : Nat) : Nat → Walk → Option Walk
  | 0, _ => none
  | fuel + 1, walk =>
    if walk.stopped then some walk
    else
      match walk.stack with
      | [] => some walk
      | (directory, entries, depth) :: stack =>
        let available := entries.take (query.limits.maxFiles + 1)
        let sorted := available.mergeSort fun a b => decide (a.name ≤ b.name)
        walkRoot query root fuel
          (sorted.foldl (visitEntry query root directory depth) { walk with stack })

/-! ## The tree -/

mutual

/-- The entries below a directory, itself included. -/
def Entry.size : Entry → Nat
  | .file _ _ => 1
  | .directory _ entries => 1 + Entry.sizes entries

def Entry.sizes : List Entry → Nat
  | [] => 0
  | entry :: entries => entry.size + Entry.sizes entries

end

mutual

/-- How deep directories are nested. -/
def Entry.height : Entry → Nat
  | .file _ _ => 0
  | .directory _ entries => 1 + Entry.heights entries

def Entry.heights : List Entry → Nat
  | [] => 0
  | entry :: entries => max entry.height (Entry.heights entries)

end

mutual

/-- The files below a directory, with the names that lead to them. -/
def Entry.files (directory : List Str) : Entry → List (List Str × DiskFile)
  | .file name content => [(directory ++ [name], content)]
  | .directory name entries => Entry.filesAll (directory ++ [name]) entries

def Entry.filesAll (directory : List Str) : List Entry → List (List Str × DiskFile)
  | [] => []
  | entry :: entries => entry.files directory ++ Entry.filesAll directory entries

end

/-- The loop over the roots. -/
def walkRoots (query : TextQuery) (roots : List SourceRoot) : Option Walk :=
  roots.foldlM (fun walk root => walkRoot query root.id (Entry.sizes root.entries + 2)
    { walk with stack := [([], root.entries, 0)] }) ⟨0, 0, [], [], false⟩

/-- `sort_by_key(|file| (file.root, file.path.clone()))`. -/
def sortsBefore (a b : SearchTextFile) : Bool :=
  decide (a.root < b.root) || (a.root == b.root && decide (a.path ≤ b.path))

/-- The roots that a search is about: all of them, if none are selected. -/
def selectedRoots (selected : Option (List Nat)) (sourceRoots : List SourceRoot) :
    List SourceRoot :=
  sourceRoots.filter fun root => selected.all fun roots => root.id ∈ roots

/-- The files of `AnalysisSnapshot::search_texts`. -/
def searchTexts (query : TextQuery) (selected : Option (List Nat)) (sourceRoots : List SourceRoot) :
    Option (List SearchTextFile) :=
  (walkRoots query (selectedRoots selected sourceRoots)).map fun walk =>
    walk.files.mergeSort sortsBefore

/-! ## What is found -/

variable {query : TextQuery} {root : Nat} {directory : List Str} {entry : Entry}
    {entries : List Entry}
  {walk : Walk} {depth : Nat}

/-- The logical path of an entry, unless it is metadata of source control. -/
def searchPath (names : List Str) : Option Str :=
  match parseLogicalPath (['/'].intercalate names) with
  | .error _ => none
  | .ok logical => if sourceMetadata logical then none else some logical

/-- The directory is entered. -/
def Enters (query : TextQuery) (names : List Str) : Prop :=
  ∃ logical, searchPath names = some logical ∧ query.skipsDirectory logical = false

mutual

/-- The files that the walk finds at an entry. -/
def Entry.found (query : TextQuery) (root : Nat) (directory : List Str) : Entry →
    List SearchTextFile
  | .file name content =>
    match searchPath (directory ++ [name]) with
    | none => []
    | some logical =>
      if query.skipsFile logical then []
      else (textOf query (directory ++ [name]) content).toList.map
        fun text => ⟨root, logical, directory ++ [name], text⟩
  | .directory name entries =>
    match searchPath (directory ++ [name]) with
    | none => []
    | some logical =>
      if query.skipsDirectory logical then []
      else Entry.foundAll query root (directory ++ [name]) entries

def Entry.foundAll (query : TextQuery) (root : Nat) (directory : List Str) :
    List Entry → List SearchTextFile
  | [] => []
  | entry :: entries => entry.found query root directory ++ Entry.foundAll query root
      directory entries

end

mutual

/-- The bytes of the texts below. -/
def Entry.bytes (query : TextQuery) : Entry → Nat
  | .file name content => ((textOf query [name] content).map byteLen).getD 0
  | .directory _ entries => Entry.bytesAll query entries

def Entry.bytesAll (query : TextQuery) : List Entry → Nat
  | [] => 0
  | entry :: entries => entry.bytes query + Entry.bytesAll query entries

end

theorem Entry.sizes_eq (entries : List Entry) : Entry.sizes entries =
    (entries.map Entry.size).sum := by
  induction entries with
  | nil => rfl
  | cons entry entries ih => rw [Entry.sizes, ih, List.map_cons, List.sum_cons]

theorem Entry.bytesAll_eq (query : TextQuery) (entries : List Entry) :
    Entry.bytesAll query entries = (entries.map (Entry.bytes query)).sum := by
  induction entries with
  | nil => rfl
  | cons entry entries ih => rw [Entry.bytesAll, ih, List.map_cons, List.sum_cons]

theorem Entry.height_le {entry : Entry} (h : entry ∈ entries) :
    entry.height ≤ Entry.heights entries := by
  induction entries with
  | nil => cases h
  | cons first entries ih =>
    rw [Entry.heights]
    rcases List.mem_cons.mp h with rfl | h
    · exact Nat.le_max_left _ _
    · exact Nat.le_trans (ih h) (Nat.le_max_right _ _)

theorem Entry.size_pos (entry : Entry) : 0 < entry.size := by
  cases entry with
  | file name content => exact Nat.one_pos
  | directory name entries =>
    rw [Entry.size]
    omega

theorem Entry.length_le_sizes (entries : List Entry) : entries.length ≤ Entry.sizes entries := by
  induction entries with
  | nil => exact le_rfl
  | cons entry entries ih =>
    have := entry.size_pos
    rw [List.length_cons, Entry.sizes]
    omega

theorem Entry.mem_foundAll {file : SearchTextFile} :
    file ∈ Entry.foundAll query root directory entries ↔
      ∃ entry ∈ entries, file ∈ entry.found query root directory := by
  induction entries with
  | nil => simp [Entry.foundAll]
  | cons entry entries ih => rw [Entry.foundAll, List.mem_append, ih]; simp

/-! ## Within the budgets -/

/-- The directories on the stack. -/
abbrev Pending := List (List Str × List Entry × Nat)

def Pending.size (stack : Pending) : Nat :=
  (stack.map fun (_, entries, _) => Entry.sizes entries).sum

def Pending.bytes (query : TextQuery) (stack : Pending) : Nat :=
  (stack.map fun (_, entries, _) => Entry.bytesAll query entries).sum

/-- The files that are found, or will be below the directories on the stack. -/
def Walk.Finds (query : TextQuery) (root : Nat) (walk : Walk) (file : SearchTextFile) : Prop :=
  file ∈ walk.files ∨ ∃ pending ∈ walk.stack, file ∈ Entry.foundAll query root pending.1 pending.2.1

/-- The budgets have room for the directories on the stack and for the entries that are left of the
current one. -/
structure Room (query : TextQuery) (walk : Walk) (rest : List Entry) (depth : Nat) : Prop where
  running : walk.stopped = false
  count : walk.count + Entry.sizes rest + Pending.size walk.stack ≤ query.limits.maxFiles
  bytes : walk.bytes + Entry.bytesAll query rest + Pending.bytes query walk.stack ≤ searchTextBytes
  height : ∀ entry ∈ rest, entry.height + depth ≤ query.limits.maxDepth
  stack : ∀ pending ∈ walk.stack, ∀ entry ∈ pending.2.1,
    entry.height + pending.2.2 ≤ query.limits.maxDepth

/-- What visiting an entry does within the budgets. -/
structure Visited (query : TextQuery) (root : Nat) (walk walk' : Walk) (directory : List Str)
    (entry : Entry) (rest : List Entry) (depth : Nat) : Prop where
  room : Room query walk' rest depth
  finds : ∀ file, walk'.Finds query root file ↔
    walk.Finds query root file ∨ file ∈ entry.found query root directory
  size : Pending.size walk'.stack + walk'.stack.length ≤
    Pending.size walk.stack + walk.stack.length + entry.size
  count : walk'.count + Pending.size walk'.stack ≤ walk.count + Pending.size walk.stack + entry.size
  bytes : walk'.bytes + Pending.bytes query walk'.stack ≤
    walk.bytes + Pending.bytes query walk.stack + entry.bytes query

variable {rest : List Entry}

theorem Room.skip (h : Room query walk (entry :: rest) depth) : Room query walk rest depth := by
  have hcount := h.count
  have hbytes := h.bytes
  rw [Entry.sizes] at hcount
  rw [Entry.bytesAll] at hbytes
  exact ⟨h.running, by omega, by omega, fun entry hentry =>
    h.height entry (List.mem_cons_of_mem _ hentry), h.stack⟩

theorem found_of_searchPath_eq_none (h : searchPath (directory ++ [entry.name]) = none) :
    entry.found query root directory = [] := by
  cases entry with
  | file name content => rw [Entry.found, show searchPath (directory ++ [name]) = none from h]
  | directory name entries => rw [Entry.found, show searchPath (directory ++ [name]) = none from h]

/-- An entry that is passed over. -/
theorem Room.visited_skip (h : Room query walk (entry :: rest) depth)
    (hnone : entry.found query root directory = []) :
    Visited query root walk walk directory entry rest depth := by
  refine ⟨h.skip, fun file => ?_, by omega, by omega, by omega⟩
  rw [hnone]
  simp

/-- An entry that is counted stays within the budget. -/
theorem Room.counted {rest : List Entry} (h : Room query walk (entry :: rest) depth) :
    (walk.counted query).stopped = false := by
  have hcount := h.count
  have hpos := entry.size_pos
  rw [Entry.sizes] at hcount
  exact decide_eq_false (by omega)

theorem visitDirectory_visited {name logical : Str}
    (h : Room query walk (.directory name entries :: rest) depth)
    (hpath : searchPath (directory ++ [name]) = some logical) :
    Visited query root walk (visitDirectory query (directory ++ [name]) logical entries depth walk)
      directory (.directory name entries) rest depth := by
  have hfound : (Entry.directory name entries).found query root directory =
      if query.skipsDirectory logical then []
      else Entry.foundAll query root (directory ++ [name]) entries := by
    rw [Entry.found, hpath]
  unfold visitDirectory
  dsimp only
  split_ifs with hskip hstop
  · exact h.visited_skip (by rw [hfound, if_pos hskip])
  · have hheight := h.height _ List.mem_cons_self
    rw [Entry.height] at hheight
    rcases hstop with hstop | hstop
    · rw [h.counted] at hstop
      cases hstop
    · omega
  · have hcount := h.count
    have hbytes := h.bytes
    rw [Entry.sizes, Entry.size] at hcount
    rw [Entry.bytesAll, Entry.bytes] at hbytes
    refine ⟨⟨h.counted, ?_, ?_, h.skip.height, fun pending hpending => ?_⟩,
      fun file => ?_, ?_, ?_, ?_⟩
    · simp only [Walk.counted, Pending.size, List.map_cons, List.sum_cons] at *
      omega
    · simp only [Walk.counted, Pending.bytes, List.map_cons, List.sum_cons] at *
      omega
    · rcases List.mem_cons.mp hpending with rfl | hpending
      · intro entry hentry
        have hle : entry.height ≤ Entry.heights entries := Entry.height_le hentry
        have hheight := h.height _ List.mem_cons_self
        rw [Entry.height] at hheight
        dsimp only
        omega
      · exact h.stack pending hpending
    · rw [hfound, if_neg hskip]
      unfold Walk.Finds Walk.counted
      simp only [List.mem_cons, exists_eq_or_imp]
      rw [or_assoc]
      exact or_congr_right or_comm
    · simp only [Walk.counted, Pending.size, List.map_cons, List.sum_cons,
        List.length_cons, Entry.size]
      omega
    · simp only [Walk.counted, Pending.size, List.map_cons, List.sum_cons, Entry.size]
      omega
    · simp only [Walk.counted, Pending.bytes, List.map_cons, List.sum_cons, Entry.bytes]
      omega

theorem textOf_append (directory : List Str) (name : Str) (content : DiskFile) :
    textOf query (directory ++ [name]) content = textOf query [name] content := by
  unfold textOf
  rw [List.getLastD_concat]
  rfl

theorem visitFile_visited {name logical : Str} {content : DiskFile}
    (h : Room query walk (.file name content :: rest) depth)
    (hpath : searchPath (directory ++ [name]) = some logical) :
    Visited query root walk (visitFile query root (directory ++ [name]) logical content walk)
      directory (.file name content) rest depth := by
  have hcount := h.count
  have hbytes := h.bytes
  rw [Entry.sizes, Entry.size] at hcount
  rw [Entry.bytesAll, Entry.bytes] at hbytes
  have hfound : (Entry.file name content).found query root directory =
      if query.skipsFile logical then []
      else (textOf query (directory ++ [name]) content).toList.map
        fun text => ⟨root, logical, directory ++ [name], text⟩ := by
    rw [Entry.found, hpath]
  have hroom : Room query (walk.counted query) rest depth :=
    ⟨h.counted, by simp only [Walk.counted]; omega, by simp only [Walk.counted]; omega,
      h.skip.height, h.stack⟩
  unfold visitFile
  dsimp only
  split_ifs with hskip hstop
  · exact h.visited_skip (by rw [hfound, if_pos hskip])
  · rw [h.counted] at hstop
    cases hstop
  · cases htext : textOf query (directory ++ [name]) content with
    | none =>
      refine ⟨hroom, fun file => ?_, by simp only [Walk.counted]; omega,
        by simp only [Walk.counted, Entry.size]; omega, by simp only [Walk.counted]; omega⟩
      rw [hfound, if_neg hskip, htext]
      simp [Walk.Finds, Walk.counted]
    | some text =>
      rw [← textOf_append directory, htext, Option.map_some, Option.getD_some] at hbytes
      have hretain : (walk.counted query).retain ⟨root, logical, directory ++ [name], text⟩ =
          { walk.counted query with
            bytes := walk.bytes + byteLen text
            files := walk.files ++ [⟨root, logical, directory ++ [name], text⟩] } := by
        unfold Walk.retain
        exact if_neg (by simp only [Walk.counted]; omega)
      dsimp only
      rw [hretain]
      refine ⟨⟨h.counted, hroom.count, ?_, h.skip.height, h.stack⟩, fun file => ?_, ?_, ?_, ?_⟩
      · dsimp only [Walk.counted]
        omega
      · rw [hfound, if_neg hskip, htext]
        simp only [Walk.Finds, Walk.counted, List.mem_append, Option.toList_some, List.map_cons,
          List.map_nil]
        rw [or_assoc, or_assoc]
        exact or_congr_right or_comm
      · dsimp only [Walk.counted]
        omega
      · dsimp only [Walk.counted]
        rw [Entry.size]
        omega
      · dsimp only [Walk.counted]
        rw [Entry.bytes, ← textOf_append directory, htext, Option.map_some, Option.getD_some]
        omega

theorem visitEntry_visited (h : Room query walk (entry :: rest) depth) :
    Visited query root walk (visitEntry query root directory depth walk entry) directory entry rest
      depth := by
  have hrunning : ¬ walk.stopped = true := by
    rw [h.running]
    decide
  unfold visitEntry
  rw [if_neg hrunning]
  dsimp only
  cases hparse : parseLogicalPath (['/'].intercalate (directory ++ [entry.name])) with
  | error e =>
    have hpath : searchPath (directory ++ [entry.name]) = none := by
      unfold searchPath
      rw [hparse]
    exact h.visited_skip (found_of_searchPath_eq_none hpath)
  | ok logical =>
    dsimp only
    split_ifs with hmetadata
    · have hpath : searchPath (directory ++ [entry.name]) = none := by
        unfold searchPath
        rw [hparse]
        exact if_pos hmetadata
      exact h.visited_skip (found_of_searchPath_eq_none hpath)
    · have hpath : searchPath (directory ++ [entry.name]) = some logical := by
        unfold searchPath
        rw [hparse]
        exact if_neg hmetadata
      cases entry with
      | file name content => exact visitFile_visited h hpath
      | directory name entries => exact visitDirectory_visited h hpath

/-- All entries of a directory. -/
theorem foldl_visitEntry (root : Nat) (directory : List Str) (entries : List Entry)
    (h : Room query walk entries depth) :
    let walk' := entries.foldl (visitEntry query root directory depth) walk
    Room query walk' [] depth ∧
      (∀ file, walk'.Finds query root file ↔
        walk.Finds query root file ∨ file ∈ Entry.foundAll query root directory entries) ∧
      Pending.size walk'.stack + walk'.stack.length ≤
        Pending.size walk.stack + walk.stack.length + Entry.sizes entries ∧
      walk'.count + Pending.size walk'.stack ≤
        walk.count + Pending.size walk.stack + Entry.sizes entries ∧
      walk'.bytes + Pending.bytes query walk'.stack ≤
        walk.bytes + Pending.bytes query walk.stack + Entry.bytesAll query entries := by
  induction entries generalizing walk with
  | nil => exact ⟨h, fun file => by simp [Entry.foundAll], le_rfl, le_rfl, le_rfl⟩
  | cons entry entries ih =>
    have hvisited : Visited query root walk _ directory entry entries depth := visitEntry_visited h
    obtain ⟨hroom, hfinds, hsize, hcount, hbytes⟩ := ih hvisited.room
    refine ⟨hroom, fun file => ?_, ?_, ?_, ?_⟩
    · rw [List.foldl_cons, hfinds, hvisited.finds, Entry.foundAll, List.mem_append, or_assoc]
    · have := hvisited.size
      rw [List.foldl_cons, Entry.sizes]
      omega
    · have := hvisited.count
      rw [List.foldl_cons, Entry.sizes]
      omega
    · have := hvisited.bytes
      rw [List.foldl_cons, Entry.bytesAll]
      omega

theorem Entry.perm_mergeSort (limit : Nat) (entries : List Entry) (h : Entry.sizes entries ≤ limit)
    (le : Entry → Entry → Bool) : ((entries.take (limit + 1)).mergeSort le).Perm entries := by
  have hlen := Entry.length_le_sizes entries
  rw [List.take_of_length_le (by omega)]
  exact List.mergeSort_perm entries le

theorem Room.perm {rest' : List Entry} (h : Room query walk rest depth) (hperm : rest'.Perm rest) :
    Room query walk rest' depth := by
  have hsizes : Entry.sizes rest' = Entry.sizes rest := by
    rw [Entry.sizes_eq, Entry.sizes_eq, (hperm.map _).sum_nat]
  have hbytes : Entry.bytesAll query rest' = Entry.bytesAll query rest := by
    rw [Entry.bytesAll_eq, Entry.bytesAll_eq, (hperm.map _).sum_nat]
  exact ⟨h.running, by rw [hsizes]; exact h.count, by rw [hbytes]; exact h.bytes,
    fun entry hentry => h.height entry (hperm.mem_iff.mp hentry), h.stack⟩

/-- The loop ends and finds what is below the directories on its stack. -/
theorem exists_walkRoot (root fuel : Nat) (h : Room query walk [] depth)
    (hfuel : Pending.size walk.stack + walk.stack.length < fuel) :
    ∃ final, walkRoot query root fuel walk = some final ∧ Room query final [] depth ∧
      final.stack = [] ∧ (∀ file, file ∈ final.files ↔ walk.Finds query root file) ∧
      final.count ≤ walk.count + Pending.size walk.stack ∧
      final.bytes ≤ walk.bytes + Pending.bytes query walk.stack := by
  induction fuel generalizing walk depth with
  | zero => exact absurd hfuel (Nat.not_lt_zero _)
  | succ fuel ih =>
    unfold walkRoot
    rw [if_neg (by rw [h.running]; decide)]
    cases hstack : walk.stack with
    | nil =>
      refine ⟨walk, rfl, h, hstack, fun file => ?_, by omega, by omega⟩
      unfold Walk.Finds
      rw [hstack]
      simp
    | cons pending stack =>
      obtain ⟨directory, entries, level⟩ := pending
      have hcount := h.count
      have hbytes := h.bytes
      rw [hstack] at hcount hbytes hfuel
      simp only [Pending.size, Pending.bytes, Entry.sizes, Entry.bytesAll, List.map_cons,
        List.sum_cons, List.length_cons] at hcount hbytes hfuel
      have hroom : Room query { walk with stack } entries level := by
        refine ⟨h.running, ?_, ?_, fun entry hentry => ?_, fun pending hpending => ?_⟩
        · simp only [Pending.size]
          omega
        · simp only [Pending.bytes]
          omega
        · exact h.stack _ (by rw [hstack]; exact List.mem_cons_self) entry hentry
        · exact h.stack pending (by rw [hstack]; exact List.mem_cons_of_mem _ hpending)
      have hperm := Entry.perm_mergeSort query.limits.maxFiles entries (by omega)
        fun a b => decide (a.name ≤ b.name)
      obtain ⟨hroom', hfinds, hsize, hcount', hbytes'⟩ := foldl_visitEntry root directory _
        (hroom.perm hperm)
      rw [Entry.sizes_eq, (hperm.map _).sum_nat, ← Entry.sizes_eq] at hsize hcount'
      rw [Entry.bytesAll_eq, (hperm.map _).sum_nat, ← Entry.bytesAll_eq] at hbytes'
      obtain ⟨final, hfinal, hfinalRoom, hempty, hfiles, hle, hble⟩ := ih hroom' (by
        simp only [Pending.size] at hsize ⊢
        omega)
      refine ⟨final, hfinal, ⟨hfinalRoom.running, hfinalRoom.count, hfinalRoom.bytes, by simp,
        hfinalRoom.stack⟩, hempty, fun file => ?_, ?_, ?_⟩
      rotate_left
      · simp only [Pending.size, List.map_cons, List.sum_cons] at hcount' hle ⊢
        omega
      · simp only [Pending.bytes, List.map_cons, List.sum_cons] at hbytes' hble ⊢
        omega
      have hfound : file ∈ Entry.foundAll query root directory
          ((entries.take (query.limits.maxFiles + 1)).mergeSort fun a b =>
            decide (a.name ≤ b.name)) ↔ file ∈ Entry.foundAll query root directory entries := by
        rw [Entry.mem_foundAll, Entry.mem_foundAll]
        exact exists_congr fun entry => and_congr_left fun _ => hperm.mem_iff
      rw [hfiles, hfinds, hfound]
      unfold Walk.Finds
      rw [hstack]
      simp only [List.mem_cons, exists_eq_or_imp]
      rw [or_assoc]
      exact or_congr_right or_comm

end ParadoxCode.Engine
