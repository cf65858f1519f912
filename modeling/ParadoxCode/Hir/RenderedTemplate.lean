import ParadoxCode.Hir.Template

/-!
# Rendered templates

`RenderedTemplate` of `template_text.rs`: the text that a template gives under some bindings, with
where its bytes come from. The views of consumed calls have no calls of their own, so that what a
frame renders and what a query returns are two types here.
-/

namespace ParadoxCode.Hir

/-- Maps generated byte boundaries into the decoded value of one root argument. -/
structure BindingSource where
  parameter : Str
  quoteLayers : Nat
  borrowedCarrier : Bool
  script : Bool
  offsets : List Nat
  deriving DecidableEq

/-- One generated piece and the root bindings that influence it. -/
structure SourcePiece where
  origin : Str × Str
  range : TextRange
  definitionRange : TextRange
  script : Bool
  parameters : Finset Str
  bindingName : Option Str
  bindingSource : Option BindingSource
  hole : Bool
  uncertainText : Bool
  structuralHole : Bool
  deriving DecidableEq

/-- `RenderedTemplate` without its calls. -/
structure RenderedText where
  text : Str := []
  pieces : List SourcePiece := []
  unresolvedBindings : List TextRange := []
  trialHoles : List TextRange := []
  frontiers : List Nat := []
  coverage : AnalysisCoverage := {}
  deriving DecidableEq

/-- Two ranges share a byte. -/
def overlaps (a b : TextRange) : Bool := decide (a.start < b.stop) && decide (b.start < a.stop)

/-- The range is empty and stands in the piece or at its border. -/
def touchesEmpty (piece range : TextRange) : Bool :=
  decide (range.start = range.stop) && decide (piece.start ≤ range.start) &&
    decide (range.start ≤ piece.stop)

namespace RenderedText

variable (rendered : RenderedText)

/-- `dependencies`. -/
def dependencies (range : TextRange) : Finset Str :=
  (rendered.pieces.filter fun piece => overlaps piece.range range ||
    touchesEmpty piece.range range).foldl (fun names piece => names ∪ piece.parameters) ∅

/-- `has_hole`. -/
def hasHole (range : TextRange) : Bool :=
  rendered.trialHoles.any (fun hole => overlaps hole range) ||
    rendered.pieces.any fun piece =>
      piece.hole && (overlaps piece.range range || touchesEmpty piece.range range)

/-- `has_uncertain_text`. -/
def hasUncertainText (range : TextRange) : Bool :=
  rendered.pieces.any fun piece => piece.uncertainText && overlaps piece.range range

/-- `has_unresolved_structure`. -/
def hasUnresolvedStructure (range : TextRange) : Bool :=
  rendered.frontiers.any (fun frontier => decide (frontier ≤ range.stop)) ||
    rendered.pieces.any fun piece =>
      (piece.structuralHole || piece.uncertainText && piece.script) &&
        decide (piece.range.start ≤ range.stop)

/-- A limit is reached at the end of the text so far. -/
def cut (reason : AnalysisLimit) : RenderedText :=
  { rendered with
    coverage := rendered.coverage.limit reason
    frontiers := rendered.frontiers ++ [asU32 (byteLen rendered.text)] }

end RenderedText

/-- `binding_range`. -/
def bindingRange (source : RenderedText) (range : TextRange) : Option (Str × TextRange) :=
  if source.hasHole range || source.hasUncertainText range ||
    source.hasUnresolvedStructure range then none
  else
    (source.pieces.find? fun piece =>
      decide (piece.range.start ≤ range.start) && decide (range.stop ≤ piece.range.stop) &&
        piece.bindingSource.isSome).bind fun piece =>
      piece.bindingSource.bind fun map =>
        match map.offsets[range.start - piece.range.start]?,
          map.offsets[range.stop - piece.range.start]? with
        | some start, some stop => (TextRange.new start stop).map fun relative =>
            (map.parameter, relative)
        | _, _ => none

/-! ## What a query returns -/

/-- A view on a call key. -/
structure CallSite where
  view : RenderedText
  schema : SchemaId
  state : ScopeState
  keyRange : TextRange
  deriving DecidableEq

/-- An invocation that the expansion has consumed. -/
structure ConsumedCall where
  kind : Str
  name : Str
  source : Option (Str × TextRange)
  site : CallSite
  deriving DecidableEq

structure RenderedTemplate extends RenderedText where
  calls : List ConsumedCall := []
  deriving DecidableEq

/-- A limit is reached at the end of the text so far. -/
def RenderedTemplate.cut (output : RenderedTemplate) (reason : AnalysisLimit) : RenderedTemplate :=
  { output with toRenderedText := output.toRenderedText.cut reason }

/-! ## Slices -/

/-- The part of a byte projection that belongs to the part from `start` to `stop` of a piece. -/
def sliceOffsets (offsets : List Nat) (start stop : Nat) : List Nat :=
  if stop < offsets.length then (offsets.drop start).take (stop - start + 1) else []

/-- A piece of a slice: where the slice has it, moved to where the slice goes. -/
def slicePiece (range : TextRange) (extra : Finset Str) (at' : Nat) (piece : SourcePiece) :
    Option SourcePiece :=
  let start := max piece.range.start range.start
  let stop := min piece.range.stop range.stop
  (TextRange.new (asU32 (at' + (start - range.start))) (asU32 (at' + (stop - range.start)))).map
    fun moved =>
    { piece with
      range := moved
      bindingSource := piece.bindingSource.map fun mapping =>
        { mapping with
          offsets := sliceOffsets mapping.offsets (start - piece.range.start)
            (stop - piece.range.start) }
      parameters := piece.parameters ∪ extra }

/-- A range that a slice has a part of. -/
def sliceRange (range : TextRange) (at' : Nat) (unresolved : TextRange) :
    Option (Option TextRange) :=
  let start := max unresolved.start range.start
  let stop := min unresolved.stop range.stop
  if start < stop then
    (TextRange.new (asU32 (at' + (start - range.start))) (asU32 (at' + (stop - range.start)))).map
      some
  else some none

/-- Whether a slice has a part of the piece. -/
def inSlice (range : TextRange) (piece : SourcePiece) : Bool :=
  overlaps piece.range range ||
    (decide (piece.range.start = piece.range.stop) && decide (range.start ≤ piece.range.start) &&
      decide (piece.range.stop ≤ range.stop))

/-- `append_slice`: whether it is appended, and the target. A range that cannot be built panics. -/
def appendSlice (target : RenderedTemplate) (source : RenderedText) (range : TextRange)
    (extra : Finset Str) (limit : Nat) : Option (Bool × RenderedTemplate) :=
  match getText source.text range.start range.stop with
  | none => some (false, target)
  | some text =>
    let length := byteLen target.text
    if byteLen text > limit - length then some (false, target.cut .textBytes)
    else do
      let pieces ← (source.pieces.filter (inSlice range)).mapM (slicePiece range extra length)
      let unresolved ← source.unresolvedBindings.mapM (sliceRange range length)
      some (true, { target with
        text := target.text ++ text
        pieces := target.pieces ++ pieces
        unresolvedBindings := target.unresolvedBindings ++ unresolved.reduceOption
        frontiers := target.frontiers ++
          (source.frontiers.filter fun frontier => range.start ≤ frontier ∧
            frontier ≤ range.stop).map
            fun frontier => asU32 (length + (frontier - range.start))
        coverage := target.coverage.merge source.coverage })

end ParadoxCode.Hir
