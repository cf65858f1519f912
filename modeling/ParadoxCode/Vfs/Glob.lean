import Mathlib.Data.List.DropRight
import ParadoxCode.Lib.Wildcard
import ParadoxCode.Text

/-!
# Glob patterns

The pattern matchers of `model.rs` in the vfs crate, and the language that their documentation gives
to a pattern. The matchers accept nothing outside the language; inside it they miss a path only
where the pattern reads it in no way that has each `*` of the pattern take a `*` that it stands
before alone.
-/

namespace ParadoxCode.Vfs

/-- `text.split('/')`. -/
def components (text : Str) : List Str := text.splitOn '/'

/-- `text.trim_end_matches('/')`. -/
def trimEndSlashes (text : Str) : Str := text.rdropWhile fun c => c == '/'

/-- `text.trim_matches('/')`. -/
def trimSlashes (text : Str) : Str := trimEndSlashes (text.dropWhile fun c => c == '/')

/-- `path.rsplit('/').next().unwrap_or(path)`. -/
def basename (path : Str) : Str := (components path).getLastD path

def doubleStar : Str := ['*', '*']

/-- A pattern character against a character: `?` and a literal are tested before `*`. -/
def takesChar (p c : Char) : Bool := p == '?' || p == c

def wildcardComponentMatches (pattern value : Str) : Bool :=
  Wildcard.greedy (fun p => p == '*') takesChar (Wildcard.rounds pattern value)
    pattern value none == some true

/-- A pattern component against a path component; `**` is tested before. -/
def takesComponent (pattern component : Str) : Bool :=
  pattern != doubleStar && wildcardComponentMatches pattern component

def globPathMatches (pattern path : List Str) : Bool :=
  Wildcard.greedy (fun part => part == doubleStar) takesComponent (Wildcard.rounds pattern path)
    pattern path none == some true

def patternMatches (pattern path : Str) (directory : Bool) : Bool :=
  let pattern := trimEndSlashes pattern
  let path := trimSlashes path
  if pattern = [] then false
  else if directory = true ∧ path = [] then false
  else
    let path := if '/' ∈ pattern then path else basename path
    globPathMatches (components pattern) (components path)

/-- The matcher of include patterns. The lowercase mapping is a parameter. -/
def includePatternMatches (toLowercase : Str → Str) (pattern path : Str) : Bool :=
  let pattern := trimEndSlashes pattern
  if pattern = [] then false
  else globPathMatches ((components pattern).map toLowercase)
    ((components (trimSlashes path)).map toLowercase)

/-! ## Normalization -/

inductive WorkspaceScanFilterError where
  | tooMany (kind : String) (limit : Nat)
  | tooLong (kind : String) (limit : Nat)
  | nul (kind : String)
  deriving DecidableEq

/-- `WorkspaceScanFilters::MAX_PATTERNS`. -/
def maxPatterns : Nat := 200

/-- `WorkspaceScanFilters::MAX_PATTERN_LENGTH`. -/
def maxPatternLength : Nat := 1024

/-- What is kept of a pattern. -/
def normalizePattern (pattern : Str) : Str :=
  let pattern := pattern.map fun c => if c = '\\' then '/' else c
  let pattern := match pattern with
    | '.' :: '/' :: rest => rest
    | pattern => pattern
  pattern.dropWhile fun c => c == '/'

def normalizeNext (kind : String) (normalized : List Str) (pattern : Str) :
    Except WorkspaceScanFilterError (List Str) :=
  if maxPatternLength < pattern.length then .error (.tooLong kind maxPatternLength)
  else if Char.ofNat 0 ∈ pattern then .error (.nul kind)
  else
    let pattern := normalizePattern pattern
    .ok (if pattern ≠ [] ∧ pattern ∉ normalized then normalized ++ [pattern] else normalized)

def normalizePatterns (patterns : List Str) (kind : String) :
    Except WorkspaceScanFilterError (List Str) :=
  if maxPatterns < patterns.length then .error (.tooMany kind maxPatterns)
  else patterns.foldlM (normalizeNext kind) []

/-- What normalization leaves: a pattern that is not empty and not absolute. -/
structure Normal (pattern : Str) : Prop where
  nonempty : pattern ≠ []
  relative : pattern.head? ≠ some '/'

/-! ## The documented language -/

/-- `*` is any string, `?` any character, and any other character itself. -/
def InComponent (pattern value : Str) : Prop :=
  Wildcard.Matches (fun p => p = '*') (fun p c => p = '?' ∨ p = c) pattern value

/-- `**` is any number of components. -/
def InPath (pattern path : List Str) : Prop :=
  Wildcard.Matches (fun part => part = doubleStar) InComponent pattern path

theorem inComponent_star {pattern value : Str} : InComponent ('*' :: pattern) value ↔
    ∃ skipped rest, value = skipped ++ rest ∧ InComponent pattern rest :=
  @Wildcard.matches_star _ _ (fun p => p = '*') _ '*' pattern value rfl

theorem inPath_cons {part component : Str} (h : part ≠ doubleStar) {pattern path : List Str} :
    InPath (part :: pattern) (component :: path) ↔ InComponent part component ∧
    InPath pattern path :=
  @Wildcard.matches_one_cons _ _ (fun part => part = doubleStar) _ part component pattern path h

/-- What a scan filter means: a pattern without a separator is about the basename. -/
def Described (pattern path : Str) : Prop :=
  let pattern := trimEndSlashes pattern
  let path := trimSlashes path
  InPath (components pattern) (components (if '/' ∈ pattern then path else basename path))

/-- What an include pattern means: it is about the whole path, without case. -/
def DescribedFolded (toLowercase : Str → Str) (pattern path : Str) : Prop :=
  InPath ((components (trimEndSlashes pattern)).map toLowercase)
    ((components (trimSlashes path)).map toLowercase)

/-! ## Readings -/

/-- The component is read with each `*` of the pattern that stands before a `*` taking just this
one. -/
def ReadsComponent (pattern value : Str) : Prop :=
  Wildcard.Takes (fun p => p = '*') (fun p c => p = '?' ∨ p = c) pattern value

/-- The components are read so. -/
def ReadsPath (pattern path : List Str) : Prop :=
  Wildcard.Matches (fun part => part = doubleStar) ReadsComponent pattern path

/-- What a scan filter means, read so. -/
def DescribedLiterally (pattern path : Str) : Prop :=
  let pattern := trimEndSlashes pattern
  let path := trimSlashes path
  ReadsPath (components pattern) (components (if '/' ∈ pattern then path else basename path))

/-- What an include pattern means, read so. -/
def DescribedFoldedLiterally (toLowercase : Str → Str) (pattern path : Str) : Prop :=
  ReadsPath ((components (trimEndSlashes pattern)).map toLowercase)
    ((components (trimSlashes path)).map toLowercase)

/-- A reading is one of the language. -/
theorem ReadsPath.inPath {pattern path : List Str} (h : ReadsPath pattern path) :
    InPath pattern path :=
  Wildcard.Matches.mono (fun _ _ hcomponent => hcomponent.matches) h

/-! ## The matchers -/

theorem takesChar_iff {p c : Char} : takesChar p c = true ↔ p = '?' ∨ p = c := by
  unfold takesChar
  rw [Bool.or_eq_true, beq_iff_eq, beq_iff_eq]

theorem wildcardComponentMatches_iff (pattern value : Str) :
    wildcardComponentMatches pattern value = true ↔ ReadsComponent pattern value := by
  have hspec : ∃ result, Wildcard.greedy (fun p => p == '*') takesChar
      (Wildcard.rounds pattern value) pattern value none = some result ∧
        (result = true ↔ ReadsComponent pattern value) :=
    Wildcard.greedy_start (fun p => beq_iff_eq) fun p c => takesChar_iff
  obtain ⟨result, hresult, hiff⟩ := hspec
  unfold wildcardComponentMatches
  rw [hresult, beq_iff_eq, Option.some.injEq]
  exact hiff

theorem globPathMatches_iff (pattern path : List Str) :
    globPathMatches pattern path = true ↔ ReadsPath pattern path := by
  have htakes : ∀ part component, takesComponent part component = true ↔
      ¬ part = doubleStar ∧ ReadsComponent part component := by
    intro part component
    unfold takesComponent
    rw [Bool.and_eq_true, bne_iff_ne, wildcardComponentMatches_iff]
  have hspec : ∃ result, Wildcard.greedy (fun part => part == doubleStar) takesComponent
      (Wildcard.rounds pattern path) pattern path none = some result ∧
        (result = true ↔ Wildcard.Takes (fun part => part = doubleStar)
          (fun part component => takesComponent part component = true) pattern path) :=
    Wildcard.greedy_start (fun part => beq_iff_eq) fun _ _ => Iff.rfl
  obtain ⟨result, hresult, hiff⟩ := hspec
  unfold globPathMatches
  rw [hresult, beq_iff_eq, Option.some.injEq, hiff]
  exact Wildcard.takes_iff_matches htakes

/-! ## Paths -/

/-- The characters of the components are those of the text, without the slashes. -/
theorem mem_components {text : Str} {c : Char} (hc : c ≠ '/') :
    (∃ component ∈ components text, c ∈ component) ↔ c ∈ text := by
  unfold components
  induction text with
  | nil => simp
  | cons d text ih =>
    rw [List.splitOn_cons_eq_if_modifyHead, List.mem_cons, ← ih]
    obtain ⟨first, more, hsplit⟩ := List.exists_cons_of_ne_nil (List.splitOn_ne_nil '/' text)
    rw [hsplit]
    split_ifs with hslash
    · have hne : c ≠ d := fun heq => hc (heq.trans (eq_of_beq hslash))
      simp [hne]
    · simp [or_assoc]

theorem slash_not_mem_components {text component : Str} (h : component ∈ components text) :
    '/' ∉ component := by
  unfold components at h
  induction text generalizing component with
  | nil =>
    rw [List.splitOn_nil, List.mem_singleton] at h
    rw [h]
    exact List.not_mem_nil
  | cons d text ih =>
    rw [List.splitOn_cons_eq_if_modifyHead] at h
    obtain ⟨first, more, hsplit⟩ := List.exists_cons_of_ne_nil (List.splitOn_ne_nil '/' text)
    rw [hsplit] at h ih
    split_ifs at h with hslash
    · rcases List.mem_cons.mp h with rfl | h
      · exact List.not_mem_nil
      · exact ih h
    · rcases List.mem_cons.mp h with rfl | h
      · rw [List.mem_cons]
        rintro (rfl | hmem)
        · exact hslash (beq_self_eq_true '/')
        · exact ih List.mem_cons_self hmem
      · exact ih (List.mem_cons_of_mem _ h)

/-- The parts of a pattern, written with slashes between them. -/
theorem components_intercalate {parts : List Str} (h : ∀ part ∈ parts, '/' ∉ part)
    (hne : parts ≠ []) : components (['/'].intercalate parts) = parts :=
  List.splitOn_intercalate '/' h hne

theorem Normal.trimEndSlashes_ne_nil {pattern : Str} (h : Normal pattern) :
    trimEndSlashes pattern ≠ [] := by
  intro hnil
  obtain ⟨c, rest, rfl⟩ := List.exists_cons_of_ne_nil h.nonempty
  have hall := List.rdropWhile_eq_nil_iff.mp hnil c List.mem_cons_self
  exact h.relative (congrArg some (eq_of_beq hall))

/-! ## Matching as documented -/

variable {pattern path : Str}

theorem patternMatches_iff (hpattern : Normal pattern) (directory : Bool) :
    patternMatches pattern path directory = true ↔
      DescribedLiterally pattern path ∧ ¬ (directory = true ∧ trimSlashes path = []) := by
  unfold patternMatches DescribedLiterally
  dsimp only
  rw [if_neg hpattern.trimEndSlashes_ne_nil]
  by_cases hempty : directory = true ∧ trimSlashes path = []
  · rw [if_pos hempty]
    exact iff_of_false Bool.false_ne_true fun h => h.2 hempty
  · rw [if_neg hempty, globPathMatches_iff, and_iff_left hempty]

theorem includePatternMatches_iff {toLowercase : Str → Str} (hpattern : Normal pattern) :
    includePatternMatches toLowercase pattern path = true ↔
      DescribedFoldedLiterally toLowercase pattern path := by
  unfold includePatternMatches
  dsimp only
  rw [if_neg hpattern.trimEndSlashes_ne_nil, globPathMatches_iff]
  rfl

/-- The matchers answer a normalized pattern and a path as documented if and only if a pattern that
describes the path reads it with each `*` that stands before a `*` of the path taking just this one,
and is not about no path. -/
theorem matches_iff_described (toLowercase : Str → Str) (hpattern : Normal pattern) :
    ((∀ directory, patternMatches pattern path directory = true ↔ Described pattern path) ∧
      (includePatternMatches toLowercase pattern path = true ↔
        DescribedFolded toLowercase pattern path)) ↔
    (Described pattern path → DescribedLiterally pattern path ∧ trimSlashes path ≠ []) ∧
      (DescribedFolded toLowercase pattern path →
        DescribedFoldedLiterally toLowercase pattern path) := by
  have hdescribed : DescribedLiterally pattern path → Described pattern path := ReadsPath.inPath
  have hfolded : DescribedFoldedLiterally toLowercase pattern path →
    DescribedFolded toLowercase pattern path :=
    ReadsPath.inPath
  rw [includePatternMatches_iff hpattern]
  refine and_congr ?_ ⟨Iff.mpr, fun h => ⟨hfolded, h⟩⟩
  simp only [patternMatches_iff hpattern]
  constructor
  · intro h hpath
    obtain ⟨hliterally, hnot⟩ := (h true).mpr hpath
    exact ⟨hliterally, fun hempty => hnot ⟨rfl, hempty⟩⟩
  · intro h directory
    constructor
    · exact fun hmatches => hdescribed hmatches.1
    · intro hpath
      obtain ⟨hliterally, hne⟩ := h hpath
      exact ⟨hliterally, fun hempty => hne hempty.2⟩

/-- The pattern `a/*x` and the path `a/*x`: the `*` is taken for the `*`. -/
theorem matches_iff_described_nested :
    (∀ directory, patternMatches "a/*x".toList "a/*x".toList directory = true ↔
      Described "a/*x".toList "a/*x".toList) ∧
    (includePatternMatches id "a/*x".toList "a/*x".toList = true ↔
      DescribedFolded id "a/*x".toList "a/*x".toList) := by
  have hreads : DescribedLiterally "a/*x".toList "a/*x".toList :=
    globPathMatches_iff _ _ |>.mp (by decide)
  have hfolded : DescribedFoldedLiterally id "a/*x".toList "a/*x".toList :=
    globPathMatches_iff _ _ |>.mp (by decide)
  exact (matches_iff_described id ⟨by decide, by decide⟩).mpr
    ⟨fun _ => ⟨hreads, by decide⟩, fun _ => hfolded⟩

/-- The pattern `*` does not match the file `*x`. -/
theorem not_matches_star : ¬ ∀ pattern path : Str, Normal pattern → trimSlashes path ≠ [] →
    (patternMatches pattern path false = true ↔ Described pattern path) := by
  intro h
  have hdescribed : Described ['*'] ['*', 'x'] := by
    have hcomponent : InComponent ['*'] ['*', 'x'] :=
      inComponent_star.mpr ⟨['*', 'x'], [], rfl, rfl⟩
    exact (inPath_cons (by decide)).mpr ⟨hcomponent, rfl⟩
  have hmatches := (h ['*'] ['*', 'x'] ⟨by decide, by decide⟩ (by decide)).mpr hdescribed
  revert hmatches
  decide

end ParadoxCode.Vfs
