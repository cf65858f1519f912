import ParadoxCode.Engine.PositionCodec
import ParadoxCode.Lib.Loops

/-!
# The shards of an index

What is kept of one source file, and the entries of files in range order. A path is what the
platform stores of it.
-/

namespace ParadoxCode.Engine.Store

open Index Format Rules NatMap

/-! ## Paths -/

inductive Platform where
  | unix
  | windows
  | other
  deriving DecidableEq

/-- What a `PathBuf` holds: bytes, or units of sixteen bits. -/
def Platform.Path : Platform → Type
  | .windows => List UInt16
  | _ => List UInt8

/-- One component of `LogicalPath::parse`. -/
def pushComponent (path : Str) (components : List Str) (component : Str) : Except Str (List Str) :=
  if component = [] ∨ component = ['.'] then .ok components
  else if component = ['.', '.'] then
    if components = [] then .error ("logical path escapes root: ".toList ++ path)
    else .ok components.dropLast
  else .ok (components ++ [component])

/-- `LogicalPath::parse`, with the text of its errors. -/
def LogicalPath.parse (path : Str) : Except Str Str := do
  let normalized := path.map fun c => if c = '\\' then '/' else c
  let components ← ((normalized.dropWhile (· == '/')).splitOn '/').foldlM (pushComponent path) []
  if components.any fun component => component.contains (Char.ofNat 0) then
    .error ("logical path contains NUL: ".toList ++ path)
  else .ok (['/'].intercalate components)

/-! ## Shards -/

structure Definition where
  kind : Str
  name : Str
  fileId : Nat
  range : TextRange
  selectionRange : TextRange
  active : Bool
  deriving DecidableEq

structure Reference where
  kind : Str
  name : Str
  range : TextRange
  deriving DecidableEq

structure DynamicParameterSignature where
  name : Str
  required : Bool
  deriving DecidableEq

structure DynamicDefinitionSummary where
  kind : Str
  name : Str
  definitionRange : TextRange
  parameters : List DynamicParameterSignature
  template : Option (Template TextRange)

/-- Whether two summaries are of one definition. -/
def DynamicDefinitionSummary.isFor (summary : DynamicDefinitionSummary) (kind name : Str)
    (range : TextRange) : Bool :=
  eqIgnoreAsciiCase summary.kind kind && eqIgnoreAsciiCase summary.name name &&
    summary.definitionRange == range

structure DefinitionAttributes where
  kind : Str
  name : Str
  definitionRange : TextRange
  attributeKeys : List Str
  subtypes : List Str
  deriving DecidableEq

/-- `FileIndexShard`, with all its parts. -/
structure FileIndexShard where
  fileId : Nat
  definitions : List Definition
  references : List Reference
  dynamicDefinitions : List DynamicDefinitionSummary
  definitionAttributes : List DefinitionAttributes
  flagWrites : List FlagWrite
  syntaxErrorCount : Nat
  referenceCoverageKnown : Bool

def FileIndexShard.empty (fileId : Nat) : FileIndexShard := ⟨fileId, [], [], [], [], [], 0, true⟩

structure SourceFile (platform : Platform) where
  id : Nat
  rootId : Nat
  physicalPath : platform.Path
  logicalPath : Str
  categoryId : Option Str
  resolution : FileResolutionPolicy

/-- `PositionMap` and `LocalisationPreviewMap`: the entries of a file in range order. -/
structure FileMap (α : Type) where
  byFile : Std.ExtTreeMap Nat (List (TextRange × α))
  nonempty : ∀ id : Nat, byFile[id]? ≠ some []
  sorted : ∀ (id : Nat) (entries : List (TextRange × α)), byFile[id]? = some entries →
    entries.Pairwise fun left right => left.1.Precedes right.1

/-! ## Entries by file -/

theorem insertEntry_front {α : Type} {entry : TextRange × α} :
    ∀ {entries : List (TextRange × α)},
      (entries.Pairwise fun left right => left.1.Precedes right.1) →
      ((insertEntry entry entries).Pairwise fun left right => left.1.Precedes right.1) ∧
        ∀ other : TextRange × α, other.1.Precedes entry.1 →
          (∀ e ∈ entries, other.1.Precedes e.1) → ∀ e ∈ insertEntry entry entries,
            other.1.Precedes e.1 := by
  intro entries
  induction entries with
  | nil =>
    intro _
    refine ⟨List.pairwise_singleton _ _, fun other hother _ e he => ?_⟩
    obtain rfl := List.mem_singleton.mp he
    exact hother
  | cons first entries ih =>
    intro hsorted
    rw [List.pairwise_cons] at hsorted
    obtain ⟨hrest, hfront⟩ := ih hsorted.2
    unfold insertEntry
    split_ifs with heq hless
    · refine ⟨List.pairwise_cons.mpr ⟨fun e he => ?_, hsorted.2⟩, fun other hother hall e he => ?_⟩
      · rw [← heq]
        exact hsorted.1 e he
      · rcases List.mem_cons.mp he with rfl | he
        · exact hother
        · exact hall e (List.mem_cons_of_mem _ he)
    · refine ⟨List.pairwise_cons.mpr ⟨hfront first hless hsorted.1, hrest⟩,
        fun other hother hall e he => ?_⟩
      rcases List.mem_cons.mp he with rfl | he
      · exact hall _ List.mem_cons_self
      · exact hfront other hother (fun e he => hall e (List.mem_cons_of_mem _ he)) e he
    · have hbefore : entry.1.Precedes first.1 := by
        unfold TextRange.Precedes
        have hne : first.1.start ≠ entry.1.start ∨ first.1.stop ≠ entry.1.stop := by
          by_contra h
          rw [not_or, not_not, not_not] at h
          refine heq ?_
          cases hfirst : first.1
          cases hentry : entry.1
          rw [hfirst, hentry] at h
          simp only at h
          simp [h.1, h.2]
        omega
      have hlast : ∀ e ∈ first :: entries, entry.1.Precedes e.1 := by
        intro e he
        rcases List.mem_cons.mp he with rfl | he
        · exact hbefore
        · have := hsorted.1 e he
          unfold TextRange.Precedes at *
          omega
      refine ⟨List.pairwise_cons.mpr ⟨hlast, List.pairwise_cons.mpr hsorted⟩,
        fun other hother hall e he => ?_⟩
      rcases List.mem_cons.mp he with rfl | he
      · exact hother
      · exact hall e he

theorem sortEntries_sorted {α : Type} (entries : List (TextRange × α)) :
    (sortEntries entries).Pairwise fun left right => left.1.Precedes right.1 := by
  unfold sortEntries
  refine List.foldlRecOn entries _ List.Pairwise.nil fun sorted hsorted entry _ => ?_
  exact (insertEntry_front hsorted).1

end ParadoxCode.Engine.Store
