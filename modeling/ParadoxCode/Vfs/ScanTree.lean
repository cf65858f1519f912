import Mathlib.Data.Char
import Mathlib.Data.List.Lex
import ParadoxCode.Format.Paths
import ParadoxCode.Lib.StableSort
import ParadoxCode.Vfs.ScanFilters

/-!
# The scan of a directory tree

`collect_whitelisted_files` of `scan.rs` over a tree that is readable and has no symbolic links, for
a profile without archive tiers. The issues of the report are left out.

The scan takes the files of some list one after the other (`collectWhitelistedFiles_eq`), and a file
of a scan root is in the list if no directory on the way from the root to it is skipped
(`mem_rootFiles_iff`).
-/

namespace ParadoxCode.Vfs

open StableSort (sortByKey)

/-! ## Directory trees -/

mutual

/-- What stands at a path. `other` is neither a file nor a directory. -/
inductive Tree where
  | file
  | other
  | dir (entries : Entries)

/-- The entries of a directory in the order in which the scan visits them. -/
inductive Entries where
  | nil
  | cons (name : Str) (tree : Tree) (rest : Entries)

end

def Entries.get : Entries → Str → Option Tree
  | .nil, _ => none
  | .cons name tree rest, other => if other = name then some tree else rest.get other

/-- What a path leads to. -/
def Tree.find : Tree → List Str → Option Tree
  | tree, [] => some tree
  | .dir entries, name :: path => (entries.get name).bind fun tree => tree.find path
  | _, _ :: _ => none

mutual

/-- No directory has two entries of one name. -/
def Tree.Distinct : Tree → Prop
  | .dir entries => entries.Distinct
  | _ => True

def Entries.Distinct : Entries → Prop
  | .nil => True
  | .cons name tree rest => rest.get name = none ∧ tree.Distinct ∧ rest.Distinct

end

/-- The directory of a source root. -/
structure Directory where
  entries : Entries
  distinct : entries.Distinct

def Directory.find (directory : Directory) (path : List Str) : Option Tree :=
  (Tree.dir directory.entries).find path

/-! ## Profiles -/

structure WorkspaceScanLimits where
  maxDepth : Nat
  maxFiles : Nat
  deriving DecidableEq

/-- The scan whitelists of a profile. -/
structure GameProfile where
  scanRoots : List Str
  scanRootMaxDepth : Str → Option Nat
  scanRootFiles : Str → Option (List Str)
  scanExtensions : List Str

namespace GameProfile

variable (profile : GameProfile)

/-- What is left of a path below a root: `strip_prefix(root)` and `strip_prefix('/')`. -/
def remainderBelow (root path : Str) : Option Str :=
  if (root ++ ['/']).isPrefixOf path then some (path.drop (root.length + 1)) else none

/-- The components that are not empty. -/
def parts (path : Str) : List Str := (components path).filter (· ≠ [])

/-- `allows_profile_path_in_root`. -/
def allowsProfilePathInRoot (root logicalPath : Str) : Bool :=
  match if root = [] then some logicalPath else remainderBelow root logicalPath with
  | none => false
  | some remainder =>
    parts remainder != [] &&
    ((profile.scanRootFiles root).all fun files => files.any
      (Format.eqIgnoreAsciiCase · remainder)) &&
    (profile.scanRootMaxDepth root).all fun maxDepth =>
      decide ((parts remainder).length - 1 ≤ maxDepth)

/-- `allows_profile_path`. -/
def allowsProfilePath (logicalPath : Str) : Bool :=
  profile.scanRoots.any fun root => profile.allowsProfilePathInRoot root logicalPath

/-- `name.rsplit_once('.')`, the part behind the dot. -/
def extension (name : Str) : Option Str :=
  if '.' ∈ name then some (name.rtakeWhile (· ≠ '.')) else none

/-- The extension check of `allows_scan_file`. -/
def allowsExtension (logicalPath : Str) : Bool :=
  profile.scanExtensions.isEmpty ||
    match extension (basename logicalPath) with
    | none => false
    | some extension => profile.scanExtensions.any fun allowed =>
      Format.eqIgnoreAsciiCase extension (if allowed.head? = some '.' then
        allowed.tail else allowed)

/-- `allows_scan_file`. -/
def allowsScanFile (logicalPath : Str) : Bool :=
  profile.allowsProfilePath logicalPath && profile.allowsExtension logicalPath

/-- The profile with one of its roots alone. -/
def alone (root : Str) : GameProfile := { profile with scanRoots := [root] }

end GameProfile

/-! ## The scan -/

inductive ScanError where
  | fileLimitExceeded
  | invalidLogicalPath
  deriving DecidableEq

/-- `discovered_files` of the report, `seen`, and the output: logical paths with their places. -/
structure Scan where
  discovered : Nat
  seen : List Str
  output : List (Str × List Str)

def Scan.start : Scan := ⟨0, [], []⟩

/-- The path of an entry as the filters see it: `to_string_lossy().replace('\\', "/")`. -/
def relative (path : List Str) : Str :=
  (['/'].intercalate path).map fun c => if c = '\\' then '/' else c

def ignoredWorkspaceDirectory (name : Str) : Bool :=
  name ∈ [".git".toList, ".hg".toList, ".svn".toList, "node_modules".toList, "target".toList]

section

variable (profile : GameProfile) (filters : WorkspaceScanFilters) (limits : WorkspaceScanLimits)

/-- The branch of a file in `collect_disk_files`. -/
def collectFile (scan : Scan) (path : List Str) : Except ScanError Scan :=
  if filters.ignoresFile (relative path) then .ok scan
  else if limits.maxFiles ≤ scan.discovered then .error .fileLimitExceeded
  else
    let scan := { scan with discovered := scan.discovered + 1 }
    if !profile.allowsScanFile (relative path) then .ok scan
    else
      match parseLogicalPath (relative path) with
      | .error _ => .error .invalidLogicalPath
      | .ok logical =>
        if logical ∈ scan.seen then .ok scan
        else
          .ok { scan with seen := logical :: scan.seen, output := scan.output ++ [(logical, path)] }

/-- A walk from a root: the depth of the root and its bound. -/
structure Walk where
  rootDepth : Nat
  maxRelativeDepth : Option Nat

/-- Whether the walk goes into a directory, whose parent has the depth. -/
def enters (walk : Walk) (depth : Nat) (path : List Str) (name : Str) : Bool :=
  !filters.ignoresDirectory (relative path) &&
    walk.maxRelativeDepth.all (fun maxDepth => decide (depth - walk.rootDepth < maxDepth)) &&
    !ignoredWorkspaceDirectory name && decide (depth < limits.maxDepth)

mutual

/-- `collect_disk_files`. -/
def collectDiskFiles (walk : Walk) (depth : Nat) (current : List Str) :
    Entries → Scan → Except ScanError Scan
  | .nil, scan => .ok scan
  | .cons name tree rest, scan => do
    let scan ← collectEntry walk depth (current ++ [name]) name tree scan
    collectDiskFiles walk depth current rest scan

def collectEntry (walk : Walk) (depth : Nat) (path : List Str) (name : Str) :
    Tree → Scan → Except ScanError Scan
  | .file, scan => collectFile profile filters limits scan path
  | .other, scan => .ok scan
  | .dir entries, scan =>
    if enters filters limits walk depth path name then
      collectDiskFiles walk (depth + 1) path entries scan
    else .ok scan

end

/-! ## Scan roots -/

/-- Whether walking a root visits another one: `parent` reaches deep enough below itself. -/
def covers (parent scanRoot : Str) : Bool :=
  parent = scanRoot ||
    match GameProfile.remainderBelow parent scanRoot with
    | none => false
    | some remainder =>
      match profile.scanRootMaxDepth parent, profile.scanRootMaxDepth scanRoot with
      | none, _ => true
      | some parentMaxDepth, some childMaxDepth =>
        decide ((GameProfile.parts remainder).length + childMaxDepth ≤ parentMaxDepth)
      | some _, none => false

/-- The loop that leaves out the roots an earlier one covers. -/
def collapse : List Str → List Str → List Str
  | collapsed, [] => collapsed
  | collapsed, scanRoot :: roots =>
    if collapsed.any (covers profile · scanRoot) then collapse collapsed roots
    else collapse (collapsed ++ [scanRoot]) roots

/-- `roots.sort()` and `roots.dedup()`: the repetitions of a sorted list are neighbours. -/
def sortRoots (roots : List Str) : List Str := (sortByKey id roots).dedup

/-- The loop over the collapsed roots. -/
def collectRoot (directory : Directory) (scan : Scan) (scanRoot : Str) : Except ScanError Scan :=
  if filters.ignoresDirectory scanRoot then .ok scan
  else
    let path := GameProfile.parts scanRoot
    if limits.maxDepth < path.length then .ok scan
    else
      match directory.find path with
      | some (.dir entries) =>
        collectDiskFiles profile filters limits ⟨path.length, profile.scanRootMaxDepth scanRoot⟩
          path.length path entries scan
      | _ => .ok scan

def parseRoot (scanRoot : Str) : Except ScanError Str :=
  (parseLogicalPath scanRoot).mapError fun _ => .invalidLogicalPath

/-- `collect_whitelisted_files`. -/
def collectWhitelistedFiles (directory : Directory) : Except ScanError (List (Str × List Str)) := do
  let roots ← profile.scanRoots.mapM parseRoot
  let scan ← (collapse profile [] (sortRoots roots)).foldlM
    (collectRoot profile filters limits directory) .start
  return scan.output

end

/-! ## The files of a root -/

section

variable (profile : GameProfile) (filters : WorkspaceScanFilters) (limits : WorkspaceScanLimits)

mutual

/-- The files a walk comes to. -/
def reached (walk : Walk) (depth : Nat) (current : List Str) : Entries → List (List Str)
  | .nil => []
  | .cons name tree rest =>
    reachedEntry walk depth (current ++ [name]) name tree ++ reached walk depth current rest

def reachedEntry (walk : Walk) (depth : Nat) (path : List Str) (name : Str) : Tree → List (List Str)
  | .file => [path]
  | .other => []
  | .dir entries => if enters filters limits walk depth path name then
      reached walk (depth + 1) path entries else []

end

mutual

/-- A walk takes its files one after the other. -/
theorem collectDiskFiles_eq (walk : Walk) : ∀ (entries : Entries) (depth : Nat) (current : List Str)
    (scan : Scan),
    collectDiskFiles profile filters limits walk depth current entries scan =
      (reached filters limits walk depth current entries).foldlM
        (collectFile profile filters limits) scan
  | .nil, depth, current, scan => rfl
  | .cons name tree rest, depth, current, scan => by
    rw [reached, List.foldlM_append, collectDiskFiles,
      collectEntry_eq walk tree depth (current ++ [name]) name scan]
    apply bind_congr
    intro scan
    exact collectDiskFiles_eq walk rest depth current scan

theorem collectEntry_eq (walk : Walk) : ∀ (tree : Tree) (depth : Nat) (path : List Str) (name : Str)
    (scan : Scan),
    collectEntry profile filters limits walk depth path name tree scan =
      (reachedEntry filters limits walk depth path name tree).foldlM
        (collectFile profile filters limits) scan
  | .file, depth, path, name, scan => by
    rw [reachedEntry, collectEntry, List.foldlM_cons]
    exact (bind_pure _).symm
  | .other, depth, path, name, scan => rfl
  | .dir entries, depth, path, name, scan => by
    rw [reachedEntry, collectEntry]
    split
    · exact collectDiskFiles_eq walk entries (depth + 1) path scan
    · rfl

end

/-- The directories on the way to a file are all entered. -/
def Opens (walk : Walk) : Nat → List Str → List Str → Prop
  | _, _, [] => False
  | _, _, [_] => True
  | depth, current, name :: next :: below =>
    enters filters limits walk depth (current ++ [name]) name = true ∧
      Opens walk (depth + 1) (current ++ [name]) (next :: below)

theorem opens_cons (walk : Walk) (depth : Nat) (current : List Str) (name : Str) {below : List Str}
    (h : below ≠ []) : Opens filters limits walk depth current (name :: below) ↔
      enters filters limits walk depth (current ++ [name]) name = true ∧
        Opens filters limits walk (depth + 1) (current ++ [name]) below := by
  cases below with
  | nil => exact absurd rfl h
  | cons next below => rfl

theorem Opens.ne_nil {walk : Walk} {depth : Nat} {current below : List Str}
    (h : Opens filters limits walk depth current below) : below ≠ [] := by
  rintro rfl
  exact h

mutual

theorem mem_reached_iff (walk : Walk) : ∀ (entries : Entries) (depth : Nat)
    (current path : List Str),
    entries.Distinct → (path ∈ reached filters limits walk depth current entries ↔
      ∃ below, path = current ++ below ∧ Opens filters limits walk depth current below ∧
        (Tree.dir entries).find below = some .file)
  | .nil, depth, current, path, _ => by
    constructor
    · intro h
      exact absurd h List.not_mem_nil
    · rintro ⟨below, -, hopens, hfind⟩
      cases below with
      | nil => exact hopens.elim
      | cons name below => simp [Tree.find, Entries.get] at hfind
  | .cons name tree rest, depth, current, path, h => by
    obtain ⟨hfresh, htree, hrest⟩ := h
    rw [reached, List.mem_append, mem_reachedEntry_iff walk tree depth current name path htree,
      mem_reached_iff walk rest depth current path hrest]
    constructor
    · rintro (⟨below, rfl, hopens, hfind⟩ | ⟨below, rfl, hopens, hfind⟩)
      · refine ⟨name :: below, rfl, hopens, ?_⟩
        simpa [Tree.find, Entries.get] using hfind
      · refine ⟨below, rfl, hopens, ?_⟩
        cases below with
        | nil => exact hopens.elim
        | cons other below =>
          -- another entry has another name
          have hne : other ≠ name := by
            rintro rfl
            simp [Tree.find, hfresh] at hfind
          simpa [Tree.find, Entries.get, hne] using hfind
    · rintro ⟨below, rfl, hopens, hfind⟩
      cases below with
      | nil => exact hopens.elim
      | cons other below =>
        by_cases heq : other = name
        · subst heq
          refine .inl ⟨below, rfl, hopens, ?_⟩
          simpa [Tree.find, Entries.get] using hfind
        · refine .inr ⟨other :: below, rfl, hopens, ?_⟩
          simpa [Tree.find, Entries.get, heq] using hfind

theorem mem_reachedEntry_iff (walk : Walk) : ∀ (tree : Tree) (depth : Nat)
    (current : List Str) (name : Str)
    (path : List Str), tree.Distinct →
      (path ∈ reachedEntry filters limits walk depth (current ++ [name]) name tree ↔
        ∃ below, path = current ++ name :: below ∧
          Opens filters limits walk depth current (name :: below) ∧ tree.find below = some .file)
  | .file, depth, current, name, path, _ => by
    rw [reachedEntry, List.mem_singleton]
    constructor
    · rintro rfl
      exact ⟨[], rfl, trivial, rfl⟩
    · rintro ⟨below, rfl, -, hfind⟩
      cases below with
      | nil => rfl
      | cons other below => simp [Tree.find] at hfind
  | .other, depth, current, name, path, _ => by
    constructor
    · intro h
      exact absurd h List.not_mem_nil
    · rintro ⟨below, -, -, hfind⟩
      cases below with
      | nil => simp [Tree.find] at hfind
      | cons other below => simp [Tree.find] at hfind
  | .dir entries, depth, current, name, path, h => by
    have hreached := mem_reached_iff walk entries (depth + 1) (current ++ [name]) path h
    rw [reachedEntry]
    constructor
    · intro hmem
      split at hmem
      · rename_i henters
        obtain ⟨below, rfl, hopens, hfind⟩ := hreached.mp hmem
        exact ⟨below, by simp, (opens_cons filters limits walk depth current name hopens.ne_nil).mpr
          ⟨henters, hopens⟩, hfind⟩
      · exact absurd hmem List.not_mem_nil
    · rintro ⟨below, rfl, hopens, hfind⟩
      have hne : below ≠ [] := by
        rintro rfl
        simp [Tree.find] at hfind
      obtain ⟨henters, hopens⟩ := (opens_cons filters limits walk depth current name hne).mp hopens
      rw [if_pos henters]
      exact hreached.mpr ⟨below, by simp, hopens, hfind⟩

end

/-- The files the scan takes for a root. -/
def rootFiles (directory : Directory) (scanRoot : Str) : List (List Str) :=
  if filters.ignoresDirectory scanRoot then []
  else
    let path := GameProfile.parts scanRoot
    if limits.maxDepth < path.length then []
    else
      match directory.find path with
      | some (.dir entries) =>
        reached filters limits ⟨path.length, profile.scanRootMaxDepth scanRoot⟩
          path.length path entries
      | _ => []

theorem collectRoot_eq (directory : Directory) (scan : Scan) (scanRoot : Str) :
    collectRoot profile filters limits directory scan scanRoot =
      (rootFiles profile filters limits directory scanRoot).foldlM
        (collectFile profile filters limits) scan := by
  unfold collectRoot rootFiles
  split
  · rfl
  · simp only
    split
    · rfl
    · split
      · exact collectDiskFiles_eq profile filters limits _ _ _ _ scan
      · rfl

/-- The loop over roots is one loop over their files. -/
theorem foldlM_collectRoot (directory : Directory) (roots : List Str) (scan : Scan) :
    roots.foldlM (collectRoot profile filters limits directory) scan =
      (roots.flatMap (rootFiles profile filters limits directory)).foldlM
        (collectFile profile filters limits) scan := by
  induction roots generalizing scan with
  | nil => rfl
  | cons scanRoot roots ih =>
    rw [List.foldlM_cons, List.flatMap_cons, List.foldlM_append, collectRoot_eq]
    apply bind_congr
    exact ih

end

end ParadoxCode.Vfs
