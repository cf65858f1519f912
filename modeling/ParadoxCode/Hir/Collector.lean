import ParadoxCode.Hir.Template
import ParadoxCode.Parser.Node
import ParadoxCode.Parser.QuotedScript

/-!
# Properties

`collector.rs`: the properties of a parsed file in source order, with the parts that the expansion
of templates reads.
-/

namespace ParadoxCode.Hir

open ParadoxCode.Parser

structure HirScalar where
  value : Str
  range : TextRange
  quoted : Bool
  deriving DecidableEq

structure HirProperty where
  key : Str
  keyRange : TextRange
  range : TextRange
  path : List Str
  valueRange : Option TextRange
  scalar : Option HirScalar
  deriving DecidableEq

/-- `trim_matches('"')`. -/
def trimQuotes (text : Str) : Str :=
  ((text.dropWhile (· = '"')).reverse.dropWhile (· = '"')).reverse

/-- `direct_scalar`. -/
def directScalar (syn : ParsedFile) (node : CstNode) : Option HirScalar := do
  let value ← node.children.find? fun child => child.kind = .value
  let scalar ← value.children.find? fun child => child.kind = .bareValue ∨
    child.kind = .quotedString
  let text ← syn.text scalar.range
  let raw := trim text
  let value :=
    if scalar.kind = .quotedString then
      match decodeQuotedScript raw with
      | some (text, _) => text
      | none => trimQuotes raw
    else raw
  some ⟨value, scalar.range, scalar.kind = .quotedString⟩

/-- The property of a node, where it has a key. -/
def propertyOf (syn : ParsedFile) (node : CstNode) (parentPath : List Str) :
    Option HirProperty := do
  if node.kind ≠ .property then none
  else
    let keyNode ← node.children.find? fun child => child.kind = .key
    let text ← syn.text keyNode.range
    let key := trim text
    if key = [] then none
    else some {
      key := key
      keyRange := keyNode.range
      range := node.range
      path := parentPath ++ [key]
      valueRange := (node.children.find? fun child => child.kind = .value).map CstNode.range
      scalar := directScalar syn node }

mutual

/-- `FactCollector::collect`. -/
def collectNode (syn : ParsedFile) (parentPath : List Str) : CstNode → List HirProperty
  | .mk kind range children =>
    match propertyOf syn (.mk kind range children) parentPath with
    | some property => property :: collectNodes syn property.path children
    | none => collectNodes syn parentPath children

def collectNodes (syn : ParsedFile) (parentPath : List Str) : List CstNode → List HirProperty
  | [] => []
  | node :: nodes => collectNode syn parentPath node ++ collectNodes syn parentPath nodes

end

/-- `collect`. -/
def collect (syn : ParsedFile) : Option (List HirProperty) :=
  syn.root.map fun root => collectNode syn [] root

/-- `binding_value`: the logical text of a template argument. -/
def bindingValue (syn : ParsedFile) (scalar : HirScalar) : Str :=
  match ((syn.text scalar.range).filter fun _ => scalar.quoted).bind decodeQuotedScript with
  | some (value, _) => value
  | none => scalar.value

end ParadoxCode.Hir
