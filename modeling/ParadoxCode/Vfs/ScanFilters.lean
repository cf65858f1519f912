import ParadoxCode.Vfs.Glob

/-!
# Scan filters and logical paths

The filters of a workspace scan, in `model.rs` of the vfs crate, and the paths that they are asked
about, in the text crate.
-/

namespace ParadoxCode.Vfs

/-! ## Logical paths -/

inductive LogicalPathError where
  | escapesRoot (path : Str)
  | nul (path : Str)
  deriving DecidableEq

/-- One component of a path: `.` and nothing are passed over, `..` takes a component back. -/
def pushComponent (path : Str) (parts : List Str) (component : Str) :
    Except LogicalPathError (List Str) :=
  if component = [] ∨ component = ['.'] then .ok parts
  else if component = ['.', '.'] then
    if parts = [] then .error (.escapesRoot path) else .ok parts.dropLast
  else .ok (parts ++ [component])

/-- `LogicalPath::parse`. -/
def parseLogicalPath (path : Str) : Except LogicalPathError Str := do
  let normalized := path.map fun c => if c = '\\' then '/' else c
  let parts ← (components (normalized.dropWhile fun c => c == '/')).foldlM (pushComponent path) []
  if parts.any fun component => component.contains (Char.ofNat 0) then .error (.nul path)
  else .ok (['/'].intercalate parts)

/-! ## Filters -/

/-- `WorkspaceScanFilters`: normalized patterns. -/
structure WorkspaceScanFilters where
  ignoreFilePatterns : List Str
  ignoreDirectoryPatterns : List Str
  deriving DecidableEq

namespace WorkspaceScanFilters

/-- `WorkspaceScanFilters::default`. -/
def empty : WorkspaceScanFilters := ⟨[], []⟩

/-- `WorkspaceScanFilters::new`. -/
def new (ignoreFilePatterns ignoreDirectoryPatterns : List Str) :
    Except WorkspaceScanFilterError WorkspaceScanFilters := do
  let files ← normalizePatterns ignoreFilePatterns "file"
  let directories ← normalizePatterns ignoreDirectoryPatterns "directory"
  return ⟨files, directories⟩

variable (filters : WorkspaceScanFilters)

def ignoresDirectory (relativePath : Str) : Bool :=
  filters.ignoreDirectoryPatterns.any fun pattern => patternMatches pattern relativePath true

end WorkspaceScanFilters

/-- What stands in front of the slashes of a path: the directories above it. -/
def parents : Str → List Str
  | [] => []
  | c :: path =>
    let below := (parents path).map (c :: ·)
    if c = '/' then [] :: below else below

/-- Whether a file is skipped, itself or with a directory above it. -/
def WorkspaceScanFilters.ignoresFile (filters : WorkspaceScanFilters) (relativePath : Str) : Bool :=
  (filters.ignoreFilePatterns.any fun pattern => patternMatches pattern relativePath false) ||
    (parents relativePath).any filters.ignoresDirectory

end ParadoxCode.Vfs
