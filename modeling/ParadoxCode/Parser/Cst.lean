import ParadoxCode.Lib.Run
import ParadoxCode.Text

/-!
# The syntax tree arena

`cst.rs`, and the parsed file of `lib.rs` with its validity check. A `Vec` is a list. Indices into
the arena are `u32` and are truncated where the source truncates them; an index out of bounds, which
panics in the source, has no value here.
-/

namespace ParadoxCode.Parser

/-- A node kind shared by the syntax frontends. -/
inductive CstKind where
  | document
  | property
  | key
  | operator
  | value
  | block
  | bareValue
  | quotedString
  | headerBlock
  | parameterBlock
  | parameterCondition
  | comment
  | bom
  | localisationDocument
  | languageHeader
  | localisationEntry
  | localisationKey
  | version
  | localisationString
  | unquotedValue
  | error
  deriving DecidableEq

structure NodeCore where
  range : TextRange
  firstEdge : Nat
  edgeCount : Nat
  deriving DecidableEq

/-- Flat arena holding one document's tree. The children of a node are contiguous in `edges`. -/
structure SyntaxTree where
  kinds : List CstKind
  cores : List NodeCore
  edges : List Nat
  root : Nat
  deriving DecidableEq

inductive TokenKind where
  | bare
  | quoted
  | operator
  | openDelimiter
  | closeDelimiter
  | colon
  | comment
  | bom
  deriving DecidableEq

structure SyntaxToken where
  kind : TokenKind
  range : TextRange
  deriving DecidableEq

inductive SyntaxErrorKind where
  | unexpectedToken
  | missingValue
  | unterminatedString
  | unterminatedBlock
  | unterminatedParameterBlock
  | invalidLocalisationEntry
  | unterminatedLocalisationString
  deriving DecidableEq

structure SyntaxError where
  kind : SyntaxErrorKind
  range : TextRange
  message : String
  deriving DecidableEq

/-- `range` of `lib.rs`: the offsets are clamped to `u32`. -/
def range (start stop : Nat) : TextRange :=
  ⟨min start u32Max, max (min stop u32Max) (min start u32Max), Nat.le_max_right _ _⟩

theorem range_start {start stop : Nat} (h : start ≤ u32Max) : (range start stop).start = start :=
  Nat.min_eq_left h

theorem range_stop {start stop : Nat} (hle : start ≤ stop) (h : stop ≤ u32Max) :
    (range start stop).stop = stop := by
  change max (min stop u32Max) (min start u32Max) = stop
  omega

/-! ## The builder -/

/-- Incremental arena builder: pending child indices and the tree so far. -/
structure SyntaxTreeBuilder where
  tree : SyntaxTree
  children : List Nat
  saturated : Bool
  deriving DecidableEq

namespace SyntaxTreeBuilder

/-- `SyntaxTreeBuilder::default`. -/
def empty : SyntaxTreeBuilder := ⟨⟨[], [], [], 0⟩, [], false⟩

/-- Emits a node whose children are the top `childCount` pending indices, and returns its index. -/
def node (builder : SyntaxTreeBuilder) (kind : CstKind) (range : TextRange) (childCount : Nat) :
    Option (Nat × SyntaxTreeBuilder) :=
  if builder.children.length < childCount then none
  else
    let tree := builder.tree
    let mark := builder.children.length - childCount
    some (asU32 tree.cores.length,
      { tree :=
          { kinds := tree.kinds ++ [kind]
            cores := tree.cores ++ [⟨range, asU32 tree.edges.length, asU32 childCount⟩]
            edges := tree.edges ++ builder.children.drop mark
            root := tree.root }
        children := builder.children.take mark
        saturated := u32Max ≤ tree.cores.length + 1 })

/-- Emitting a node with the children `top`. -/
theorem node_eq {builder : SyntaxTreeBuilder} {below top : List Nat}
    (h : builder.children = below ++ top) (kind : CstKind) (range : TextRange) :
    builder.node kind range top.length = some (asU32 builder.tree.cores.length,
      { tree :=
          { kinds := builder.tree.kinds ++ [kind]
            cores := builder.tree.cores ++
              [⟨range, asU32 builder.tree.edges.length, asU32 top.length⟩]
            edges := builder.tree.edges ++ top
            root := builder.tree.root }
        children := below
        saturated := u32Max ≤ builder.tree.cores.length + 1 }) := by
  unfold node
  rw [h, if_neg (by rw [List.length_append]; omega)]
  simp only [List.length_append, Nat.add_sub_cancel, List.drop_left, List.take_left]

/-- Queues one emitted node as a child of the parent under construction. -/
def pushChild (builder : SyntaxTreeBuilder) (index : Nat) : SyntaxTreeBuilder :=
  { builder with children := builder.children ++ [index] }

/-- How many pending children were queued since a mark. -/
def childrenSince (builder : SyntaxTreeBuilder) (mark : Nat) : Option Nat :=
  if builder.children.length < mark then none else some (builder.children.length - mark)

/-- The emitted range of one node. -/
def nodeRange (builder : SyntaxTreeBuilder) (index : Nat) : Option TextRange :=
  builder.tree.cores[index]?.map NodeCore.range

/-- Finishes the tree, marking the last emitted node as the root. -/
def finish (builder : SyntaxTreeBuilder) : SyntaxTree :=
  { builder.tree with root := (asU32 builder.tree.cores.length + (2 ^ 32 - 1)) % 2 ^ 32 }

end SyntaxTreeBuilder

/-! ## Parsed files -/

inductive FileFormat where
  | script
  | localisation
  deriving DecidableEq

structure ParseParts where
  tree : SyntaxTree
  tokens : List SyntaxToken
  errors : List SyntaxError
  deriving DecidableEq

/-- A loss-aware parsed document. -/
structure ParsedFile where
  format : FileFormat
  source : List Char
  tree : SyntaxTree
  tokens : List SyntaxToken
  errors : List SyntaxError
  revision : Nat
  deriving DecidableEq

/-- `ParsedFile::from_parts`. -/
def ParsedFile.fromParts (format : FileFormat) (source : List Char) (parts : ParseParts)
    (revision : Nat) : ParsedFile :=
  ⟨format, source, parts.tree, parts.tokens, parts.errors, revision⟩

/-- The child indices of a node. -/
def SyntaxTree.children (tree : SyntaxTree) (core : NodeCore) : List Nat :=
  if core.firstEdge + core.edgeCount ≤ tree.edges.length then
    (tree.edges.drop core.firstEdge).take core.edgeCount
  else []

def validRange (range : TextRange) (source : List Char) : Bool :=
  range.start ≤ range.stop && range.stop ≤ byteLen source &&
    (getText source range.start range.stop).isSome

/-- `valid_node`. The recursion ends in the source because a child is emitted before its parent;
here `fuel` bounds its depth. -/
def validNode (tree : SyntaxTree) (source : List Char) : Nat → Nat → Option TextRange → Bool
  | 0, _, _ => false
  | fuel + 1, index, parent =>
    match tree.cores[index]? with
    | none => false
    | some core =>
      validRange core.range source &&
        parent.all (fun parent =>
          parent.start ≤ core.range.start && core.range.stop ≤ parent.stop) &&
        (tree.children core).all fun child => validNode tree source fuel child (some core.range)

/-- Whether a parse can safely be reused for the supplied source. -/
def ParsedFile.isValidFor (file : ParsedFile) (format : FileFormat) (source : List Char) : Bool :=
  file.format == format && file.source == source &&
    (match format, file.tree.kinds[file.tree.root]? with
      | .script, some .document => true
      | .localisation, some .localisationDocument => true
      | _, _ => false) &&
    validNode file.tree source (file.tree.cores.length + 1) file.tree.root none &&
    file.tokens.all (fun token => validRange token.range source) &&
    file.errors.all fun error => validRange error.range source

end ParadoxCode.Parser
