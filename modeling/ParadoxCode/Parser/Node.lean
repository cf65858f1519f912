import ParadoxCode.Parser.Cst

/-!
# Nodes

A handle on a node of the arena gives its kind, its range and its children. The model reads the tree
out of the arena once: a walk over the handles is a walk over the nodes.
-/

namespace ParadoxCode.Parser

/-- What `CstNode` gives of a node. -/
inductive CstNode where
  | mk (kind : CstKind) (range : TextRange) (children : List CstNode)

namespace CstNode

def kind : CstNode → CstKind
  | mk kind _ _ => kind

def range : CstNode → TextRange
  | mk _ range _ => range

def children : CstNode → List CstNode
  | mk _ _ children => children

end CstNode

/-- The first child of a kind. -/
def childOfKind (node : CstNode) (kind : CstKind) : Option CstNode :=
  node.children.find? fun child => child.kind == kind

/-- The node of an index. A walk that leaves the arena panics in the source; here it has no result,
and neither has one that is deeper than `fuel`. -/
def SyntaxTree.nodeAt (tree : SyntaxTree) : Nat → Nat → Option CstNode
  | 0, _ => none
  | fuel + 1, index =>
    match tree.kinds[index]?, tree.cores[index]? with
    | some kind, some core =>
      ((tree.children core).mapM (nodeAt tree fuel)).map (CstNode.mk kind core.range)
    | _, _ => none

/-- `ParsedFile::root`. -/
def ParsedFile.root (file : ParsedFile) : Option CstNode :=
  file.tree.nodeAt (file.tree.cores.length + 1) file.tree.root

/-- `ParsedFile::text`. -/
def ParsedFile.text (file : ParsedFile) (range : TextRange) : Option (List Char) :=
  getText file.source range.start range.stop

end ParadoxCode.Parser
