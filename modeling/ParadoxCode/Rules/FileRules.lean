import Mathlib.Data.Char
import Mathlib.Data.List.Lex
import ParadoxCode.Lib.LastMax
import ParadoxCode.Rules.FileCategory
import ParadoxCode.Rules.Interner

/-!
# File rules of the lowered sources

1. The `files` section of a rule source and what `register_names` and `register_files` of `lower.rs`
make of it. The other sections, the roots and the rest of lowering are parameters (`Language`); all
   they have in common with the file rules are the interned names.
2. `file_rule` of `ir.rs`, for the analysis, and the catalog of `from_ir_catalog` of `runtime.rs`,
for the scan.
3. The rules are in the order of their names once lowered, so that sorting the catalog by name
leaves it as it is and both take the last of the most specific matches of one list
   (`classify_fileRule`).
-/

namespace ParadoxCode.Rules

open Format LastMax StableSort

/-! ## Sources -/

/-- The document parser of a source rule. -/
inductive SourceParser where
  | script
  | localisation
  | asset
  | syntaxOnly
  deriving DecidableEq

inductive SourceFileResolution where
  | replaceByPath
  | merge
  deriving DecidableEq

/-- One file extension, or a list of them. -/
inductive ExtSpec where
  | one (ext : Str)
  | many (exts : List Str)
  deriving DecidableEq

/-- Every extension the spec selects. -/
def ExtSpec.iter : ExtSpec → List Str
  | one ext => [ext]
  | many exts => exts

/-- One `files` entry of a source. -/
structure SourceFileRule (RootSpec : Type) where
  path : Str
  ext : Option ExtSpec
  file : Option Str
  strict : Option Bool
  exclude : List Str
  parser : Option SourceParser
  resolution : SourceFileResolution
  root : Option RootSpec

/-- A source: its `files` section in the order of the entry names, and the other sections. -/
structure RuleFile (RootSpec Sections : Type) where
  files : List (Str × SourceFileRule RootSpec)
  sections : Sections

/-! ## Lowering -/

inductive DocumentParser where
  | script
  | localisation
  | asset
  | syntaxOnly
  deriving DecidableEq

inductive FileResolution where
  | replaceByPath
  | merge
  deriving DecidableEq

/-- A lowered `files` entry. -/
structure FileRule (RootRule : Type) where
  name : Symbol
  matcher : FileMatcher
  parser : DocumentParser
  resolution : FileResolution
  strict : Bool
  root : RootRule
  deriving DecidableEq

/-- The rest of lowering: the working state of the other sections, and the checks before it. -/
structure Language (RootSpec Sections RootRule Rest : Type) where
  /-- `compile::check`: whether there is an error. -/
  check : List (Str × RuleFile RootSpec Sections) → Bool
  start : Rest
  /-- The other sections of a source in `register_names`. -/
  registerSections : Symbol → Sections → Rest → Interning Rest
  /-- `register_types`, `fill_types` and `fill_scopes`. -/
  registerTypes : List (Str × RuleFile RootSpec Sections) → Rest → Interning Rest
  /-- `lower_root`. -/
  lowerRoot : Option RootSpec → Rest → Interning (RootRule × Rest)
  /-- `drain_jobs`. -/
  drainJobs : Rest → Interning Rest

variable {RootSpec Sections RootRule Rest : Type}

/-- The file rules of the sources under their names (`file_defs`), with the rest of the state. -/
structure Registered (RootSpec Rest : Type) where
  fileDefs : List (Symbol × SourceFileRule RootSpec)
  rest : Rest

/-- The `files` section of one source in `register_names`. -/
def registerFileDefs : List (Str × SourceFileRule RootSpec) →
    Interning (List (Symbol × SourceFileRule RootSpec))
  | [] => pure []
  | (name, rule) :: entries => do
    let symbol ← .internFolded name
    let others ← registerFileDefs entries
    pure ((symbol, rule) :: others)

/-- `register_names`. -/
def registerNames (language : Language RootSpec Sections RootRule Rest) :
    List (Str × RuleFile RootSpec Sections) → Registered RootSpec Rest →
    Interning (Registered RootSpec Rest)
  | [], registered => pure registered
  | (fileName, file) :: sources, registered => do
    let fileSymbol ← .internVerbatim fileName
    let rest ← language.registerSections fileSymbol file.sections registered.rest
    let fileDefs ← registerFileDefs file.files
    registerNames language sources ⟨registered.fileDefs ++ fileDefs, rest⟩

/-- The document parser of a rule; `script` if there is none. -/
def documentParser : Option SourceParser → DocumentParser
  | some .script | none => .script
  | some .localisation => .localisation
  | some .asset => .asset
  | some .syntaxOnly => .syntaxOnly

def fileResolution : SourceFileResolution → FileResolution
  | .replaceByPath => .replaceByPath
  | .merge => .merge

/-- The matcher of a rule. -/
def fileMatcher (rule : SourceFileRule RootSpec) : FileMatcher where
  pathPrefix :=
    match rule.file with
    | some _ => none
    | none => if rule.path.isEmpty then none else some rule.path
  pathExact := rule.file.map fun file => if rule.path.isEmpty then file else
    rule.path ++ '/' :: file
  extensions := rule.ext.toList.flatMap ExtSpec.iter
  pathSuffix := none
  pathExcludePrefixes := rule.exclude
  caseSensitive := false

/-- The loop of `register_files`. -/
def lowerFiles (language : Language RootSpec Sections RootRule Rest) :
    List (Symbol × SourceFileRule RootSpec) → Rest → Interning (List (FileRule RootRule) × Rest)
  | [], rest => pure ([], rest)
  | (name, rule) :: fileDefs, rest => do
    let (root, rest) ← language.lowerRoot rule.root rest
    let (files, rest) ← lowerFiles language fileDefs rest
    pure (⟨name, fileMatcher rule, documentParser rule.parser, fileResolution rule.resolution,
      rule.strict.getD false, root⟩ :: files, rest)

/-- The lowered rules, as far as files are concerned. -/
structure RulesIr (RootRule : Type) where
  files : List (FileRule RootRule)
  strings : Interner
  deriving DecidableEq

/-- The rules before the names are looked at again, with the strings that `register_files` sorts
by. -/
def registerFiles (language : Language RootSpec Sections RootRule Rest)
    (sources : List (Str × RuleFile RootSpec Sections)) (strings : Interner) :
    List (FileRule RootRule) × Rest × Interner :=
  let (registered, strings) := (registerNames language sources ⟨[], language.start⟩).run strings
  let (rest, strings) := (language.registerTypes sources registered.rest).run strings
  let ((files, rest), strings) := (lowerFiles language registered.fileDefs rest).run strings
  (sortByKey (fun file => strings.resolve file.name) files, rest, strings)

/-- `lower`, with the interner that holds the name of the game already. -/
def lower (language : Language RootSpec Sections RootRule Rest)
    (sources : List (Str × RuleFile RootSpec Sections)) (strings : Interner) :
    Option (RulesIr RootRule) :=
  if language.check sources then none
  else
    let (files, rest, strings) := registerFiles language sources strings
    let (_, strings) := (language.drainJobs rest).run strings
    some ⟨files, strings⟩

/-! ## Consumers -/

/-- `file_rule`: the last of the most specific rules that match, with its index. -/
def RulesIr.fileRule (ir : RulesIr RootRule) (path : Str) : Option (Nat × FileRule RootRule) :=
  lastMax (fun entry => toLex entry.2.matcher.specificity)
    ((ir.files.zipIdx.map Prod.swap).filter fun entry => entry.2.matcher.matches path)

/-- The parser of a category. -/
def DocumentParser.kind : DocumentParser → ParserKind
  | script => .script
  | localisation => .localisation
  | asset => .asset
  | syntaxOnly => .syntaxOnly

/-- The resolution of a category. -/
def FileResolution.policy : FileResolution → FileResolutionPolicy
  | replaceByPath => .replaceByRelativePath
  | merge => .merge

/-- The category of a rule. -/
def RulesIr.category (ir : RulesIr RootRule) (file : FileRule RootRule) : FileCategory where
  id := ir.strings.resolve file.name
  parser := file.parser.kind
  resolution := file.resolution.policy
  matcher := file.matcher

/-- `from_catalog`, as far as categories are concerned. -/
def fromCatalog (categories : List FileCategory) : List FileCategory :=
  sortByKey FileCategory.id categories

/-- `from_ir_catalog`. -/
def fromIrCatalog (ir : RulesIr RootRule) : List FileCategory :=
  fromCatalog (ir.files.map ir.category)

/-! ## Names -/

/-- Every rule under a symbol that has its text. -/
def Named {α : Type} (strings : Interner) (name : α → Symbol) (entries : List α) : Prop :=
  ∀ entry ∈ entries, strings.Has (name entry)

theorem Named.extends {α : Type} {before after : Interner} {name : α → Symbol} {entries : List α}
    (hnamed : Named before name entries) (h : before.Extends after) : Named after name entries :=
  fun entry hentry => h.has (hnamed entry hentry)

theorem named_registerFileDefs (entries : List (Str × SourceFileRule RootSpec))
    (strings : Interner) :
    Named ((registerFileDefs entries).run strings).2 Prod.fst
      ((registerFileDefs entries).run strings).1 := by
  induction entries generalizing strings with
  | nil => exact fun entry hentry => absurd hentry List.not_mem_nil
  | cons entry entries ih =>
    simp only [registerFileDefs, Interning.run_bind, Interning.run_internFolded, Interning.run_pure]
    intro definition hdefinition
    rcases List.mem_cons.mp hdefinition with rfl | hdefinition
    · have hhas := strings.has_internVerbatim (toAsciiLowercase entry.1)
      exact (Interning.extends_run (registerFileDefs entries) _).has hhas
    · exact ih _ definition hdefinition

theorem named_registerNames (language : Language RootSpec Sections RootRule Rest)
    (sources : List (Str × RuleFile RootSpec Sections)) :
    ∀ (registered : Registered RootSpec Rest) (strings : Interner),
      Named strings Prod.fst registered.fileDefs →
      Named ((registerNames language sources registered).run strings).2 Prod.fst
        ((registerNames language sources registered).run strings).1.fileDefs := by
  induction sources with
  | nil => exact fun registered strings h => h
  | cons source sources ih =>
    intro registered strings h
    simp only [registerNames, Interning.run_bind, Interning.run_internVerbatim]
    apply ih
    intro definition hdefinition
    rcases List.mem_append.mp hdefinition with hold | hnew
    · refine (h.extends ?_) definition hold
      exact ((strings.extends_internVerbatim source.1).trans (Interning.extends_run _ _)).trans
        (Interning.extends_run _ _)
    · exact named_registerFileDefs source.2.files _ definition hnew

/-- Lowering a rule keeps its name. -/
theorem named_lowerFiles (language : Language RootSpec Sections RootRule Rest)
    (fileDefs : List (Symbol × SourceFileRule RootSpec)) (rest : Rest) (strings : Interner) :
    ((lowerFiles language fileDefs rest).run strings).1.1.map FileRule.name =
      fileDefs.map Prod.fst := by
  induction fileDefs generalizing rest strings with
  | nil => rfl
  | cons entry fileDefs ih =>
    simp only [lowerFiles, Interning.run_bind, Interning.run_pure, List.map_cons]
    rw [ih]

theorem named_registerFiles (language : Language RootSpec Sections RootRule Rest)
    (sources : List (Str × RuleFile RootSpec Sections)) (strings : Interner) :
    Named (registerFiles language sources strings).2.2 FileRule.name
      (registerFiles language sources strings).1 := by
  intro file hfile
  simp only [registerFiles] at hfile ⊢
  set registered := (registerNames language sources ⟨[], language.start⟩).run strings
  set types := (language.registerTypes sources registered.1.rest).run registered.2
  have hnames : Named registered.2 Prod.fst registered.1.fileDefs :=
    named_registerNames language sources ⟨[], language.start⟩ strings
      fun entry hentry => absurd hentry List.not_mem_nil
  -- the name of the file is the name of a definition
  have hname : file.name ∈ registered.1.fileDefs.map Prod.fst := by
    rw [← named_lowerFiles language registered.1.fileDefs types.1 types.2]
    exact List.mem_map_of_mem ((perm_sortByKey _ _).mem_iff.mp hfile)
  obtain ⟨definition, hdefinition, hdefname⟩ := List.mem_map.mp hname
  rw [← hdefname]
  have hextends : registered.2.Extends types.2 := Interning.extends_run _ _
  exact (hextends.trans (Interning.extends_run _ _)).has (hnames definition hdefinition)

/-! ## Both choices -/

theorem lower_eq (language : Language RootSpec Sections RootRule Rest)
    (sources : List (Str × RuleFile RootSpec Sections)) (strings : Interner) :
    lower language sources strings =
      if language.check sources then none
      else
        some ⟨(registerFiles language sources strings).1,
          ((language.drainJobs (registerFiles language sources strings).2.1).run
            (registerFiles language sources strings).2.2).2⟩ := rfl

/-- Lowered rules are in the order of their names. -/
theorem sorted_lower {language : Language RootSpec Sections RootRule Rest}
    {sources : List (Str × RuleFile RootSpec Sections)} {strings : Interner} {ir : RulesIr RootRule}
    (h : lower language sources strings = some ir) :
    ir.files.Pairwise fun left right => ir.strings.resolve left.name ≤
      ir.strings.resolve right.name := by
  rw [lower_eq] at h
  split_ifs at h with herrors
  obtain rfl := Option.some.inj h
  have hnamed := named_registerFiles language sources strings
  have hsorted : (registerFiles language sources strings).1.Pairwise fun left right =>
      (registerFiles language sources strings).2.2.resolve left.name ≤
        (registerFiles language sources strings).2.2.resolve right.name :=
    pairwise_sortByKey (fun file : FileRule RootRule =>
      (registerFiles language sources strings).2.2.resolve file.name) _
  have hextends := Interning.extends_run (language.drainJobs
    (registerFiles language sources strings).2.1) (registerFiles language sources strings).2.2
  -- the names are the same once the other jobs are done
  refine hsorted.imp_of_mem fun {left right} hleft hright hle => ?_
  dsimp only
  rw [hextends.resolve (hnamed left hleft), hextends.resolve (hnamed right hright)]
  exact hle

/-- The catalog of lowered rules keeps their order. -/
theorem fromIrCatalog_lower {language : Language RootSpec Sections RootRule Rest}
    {sources : List (Str × RuleFile RootSpec Sections)} {strings : Interner} {ir : RulesIr RootRule}
    (h : lower language sources strings = some ir) : fromIrCatalog ir =
      ir.files.map ir.category := by
  apply sortByKey_eq_self
  rw [List.pairwise_map]
  exact sorted_lower h

theorem mostSpecific_eq_lastMax (categories : List FileCategory) :
    mostSpecific categories = lastMax (fun category => toLex category.matcher.specificity)
      categories := by
  induction categories with
  | nil => rfl
  | cons category rest ih =>
    unfold mostSpecific lastMax
    rw [ih]
    cases lastMax (fun category => toLex category.matcher.specificity) rest with
    | none => rfl
    | some other =>
      dsimp only
      simp only [Prod.Lex.toLex_lt_toLex]

/-- The rule that the analysis takes, without its index. -/
theorem snd_fileRule (ir : RulesIr RootRule) (path : Str) :
    (ir.fileRule path).map Prod.snd =
      lastMax (fun file => toLex file.matcher.specificity)
        (ir.files.filter fun file => file.matcher.matches path) := by
  have hfiles : (ir.files.zipIdx.map Prod.swap).map Prod.snd = ir.files := by
    rw [List.map_map]
    exact List.zipIdx_map_fst 0 ir.files
  unfold RulesIr.fileRule
  conv_rhs => rw [← hfiles, List.filter_map, lastMax_map]
  rfl

/-- The scan and the analysis choose one rule for every path. -/
theorem classify_fileRule {language : Language RootSpec Sections RootRule Rest}
    {sources : List (Str × RuleFile RootSpec Sections)} {strings : Interner} {ir : RulesIr RootRule}
    (h : lower language sources strings = some ir) (path : Str) :
    (classify (fromIrCatalog ir) path).map
      (fun category => (category.id, category.parser, category.resolution)) =
      (ir.fileRule path).map fun entry =>
        (ir.strings.resolve entry.2.name, entry.2.parser.kind, entry.2.resolution.policy) := by
  have hclassify : classify (fromIrCatalog ir) path = ((ir.fileRule path).map Prod.snd).map
    ir.category := by
    unfold classify
    rw [fromIrCatalog_lower h, mostSpecific_eq_lastMax, List.filter_map, lastMax_map, snd_fileRule]
    rfl
  rw [hclassify, Option.map_map, Option.map_map]
  rfl

/-- A language without other sections. -/
def noSections : Language Unit Unit Unit Unit where
  check _ := false
  start := ()
  registerSections _ _ _ := pure ()
  registerTypes _ _ := pure ()
  lowerRoot _ _ := pure ((), ())
  drainJobs _ := pure ()

/-- The rule of a directory. -/
def directoryRule (path : Str) (parser : SourceParser) : SourceFileRule Unit :=
  ⟨path, none, none, none, [], some parser, .merge, none⟩

/-- Two sources with a rule each for one directory. -/
def splitSources : List (Str × RuleFile Unit Unit) :=
  [("a.json".toList, ⟨[("Zones".toList, directoryRule "events".toList .script)], ()⟩),
    ("b.json".toList, ⟨[("areas".toList, directoryRule "events".toList .asset)], ()⟩)]

/-- The rule of the first source comes last by name. -/
def splitIr : RulesIr Unit where
  files :=
    [⟨3, fileMatcher (directoryRule "events".toList .asset), .asset, .merge, false, ()⟩,
      ⟨1, fileMatcher (directoryRule "events".toList .script), .script, .merge, false, ()⟩]
  strings := ⟨["a.json".toList, "zones".toList, "b.json".toList, "areas".toList]⟩

theorem classify_fileRule_split :
    lower noSections splitSources ⟨[]⟩ = some splitIr ∧
      (classify (fromIrCatalog splitIr) "events/x.txt".toList).map
          (fun category => (category.id, category.parser, category.resolution)) =
        (splitIr.fileRule "events/x.txt".toList).map fun entry =>
          (splitIr.strings.resolve entry.2.name, entry.2.parser.kind, entry.2.resolution.policy) :=
  ⟨by decide +kernel, @classify_fileRule _ _ _ _ noSections splitSources ⟨[]⟩ splitIr
    (by decide +kernel) _⟩

/-- It is the one that is chosen. -/
example : (splitIr.fileRule "events/x.txt".toList).map Prod.fst = some 1 := by decide +kernel

end ParadoxCode.Rules
