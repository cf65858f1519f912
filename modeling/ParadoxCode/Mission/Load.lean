import ParadoxCode.Mission.Model
import ParadoxCode.Parser.File
import ParadoxCode.Parser.Node

/-!
# Loading a mission file

`load.rs`: the walk from the syntax tree to the mission model. A loop that fills a structure field
by field is a fold over the properties, and the warnings go along with it.
-/

namespace ParadoxCode.Eu4

open ParadoxCode.Parser

/-! ## The view of a game package -/

/-- `ProfileMissionTreeFields`. -/
structure TreeFields where
  slot : Str
  generic : Str
  ai : Str
  hasCountryShield : Str
  potential : Str
  potentialOnLoad : Str

/-- `ProfileMissionNodeFields`. -/
structure NodeFields where
  icon : Str
  nodeType : Str
  provincesToHighlight : Str
  requiredMissions : Str
  position : Str
  completedBy : Str
  trigger : Str
  effect : Str

/-- `ProfileMissionViewSpec`: the field spellings of a game package and the order its writer
keeps. -/
structure ViewSpec where
  treeFields : TreeFields
  nodeFields : NodeFields
  treeFieldOrder : List Str
  nodeFieldOrder : List Str

/-- `view_spec`: the mission view of the EU4 package. -/
def viewSpec : ViewSpec where
  treeFields :=
    { slot := "slot".toList
      generic := "generic".toList
      ai := "ai".toList
      hasCountryShield := "has_country_shield".toList
      potential := "potential".toList
      potentialOnLoad := "potential_on_load".toList }
  nodeFields :=
    { icon := "icon".toList
      nodeType := "type".toList
      provincesToHighlight := "provinces_to_highlight".toList
      requiredMissions := "required_missions".toList
      position := "position".toList
      completedBy := "completed_by".toList
      trigger := "trigger".toList
      effect := "effect".toList }
  treeFieldOrder := ["slot".toList, "generic".toList, "ai".toList, "potential_on_load".toList,
    "potential".toList, "has_country_shield".toList]
  nodeFieldOrder := ["icon".toList, "required_missions".toList, "position".toList,
    "completed_by".toList, "type".toList, "provinces_to_highlight".toList, "trigger".toList,
    "effect".toList]

/-! ## Texts of nodes -/

/-- The decimal digits of a `u32`, an optional `+` in front: `str::parse::<u32>`. -/
def parseU32 (text : Str) : Option Nat :=
  let digits := match text with
    | '+' :: rest => rest
    | _ => text
  if digits ≠ [] ∧ digits.all Char.isDigit then
    tryU32 (digits.foldl (fun n digit => 10 * n + (digit.toNat - '0'.toNat)) 0)
  else none

def isBlockKind (kind : CstKind) : Bool := kind == .block || kind == .headerBlock

/-- The block node of a property value, unwrapping the `Value` wrapper. -/
def asBlock (node : CstNode) : Option CstNode :=
  if isBlockKind node.kind then some node
  else if node.kind = .value then node.children.find? fun child => isBlockKind child.kind
  else none

/-- The key and the value of a property, the last of each. -/
def propParts (prop : CstNode) : Option (CstNode × CstNode) :=
  match prop.children.findRev? (fun child => child.kind == .key),
    prop.children.findRev? (fun child => child.kind == .value) with
  | some key, some value => some (key, value)
  | _, _ => none

/-- Properties directly inside a block, in source order. -/
def blockProps (block : CstNode) : List CstNode :=
  block.children.filter fun child => child.kind == .property

section

variable (parsed : ParsedFile)

/-- Full raw value text (scalar or block, braces included). -/
def valueText (node : CstNode) : Str := trim ((parsed.text node.range).getD [])

/-- Unquoted scalar text of a node. -/
def scalar (node : CstNode) : Str := unquote (valueText parsed node)

/-- Scalars inside a block with their token ranges, in source order. -/
def blockScalars (block : CstNode) : List (Str × TextRange) :=
  let scalars := block.children.filter fun child =>
    child.kind == .bareValue || child.kind == .quotedString
  (scalars.map fun child => (scalar parsed child, child.range)).filter fun entry =>
    !entry.1.isEmpty

def parseU32Of (node : CstNode) : Option Nat := parseU32 (scalar parsed node)

def parseBool (node : CstNode) : Option Bool :=
  if scalar parsed node = "yes".toList then some true
  else if scalar parsed node = "no".toList then some false
  else none

/-- The block of a value, where it is one. -/
def blockText (node : CstNode) : Option Block :=
  (asBlock node).map fun block => ⟨valueText parsed block⟩

end

/-- The warning of `push_unknown`. -/
def unexpectedType (name : Str) : Str :=
  "field `".toList ++ name ++ "` has an unexpected value type; kept verbatim".toList

/-! ## Missions and trees -/

section

variable (parsed : ParsedFile) (spec : ViewSpec)

/-- One field of a mission and the warnings so far. -/
def missionField (state : Mission × List Str) (prop : CstNode) : Mission × List Str :=
  match propParts prop with
  | none => state
  | some (key, value) =>
    let (mission, warnings) := state
    let name := scalar parsed key
    let field := RawField.mk name (valueText parsed value)
    let unexpected := ({ mission with unknown := mission.unknown ++ [field] },
      warnings ++ [unexpectedType name])
    let fields := spec.nodeFields
    if name = fields.icon then ({ mission with icon := some (scalar parsed value) }, warnings)
    else if name = fields.nodeType then
      ({ mission with missionType := some (scalar parsed value) }, warnings)
    else if name = fields.provincesToHighlight ∧ (asBlock value).isSome then
      ({ mission with provincesToHighlight := blockText parsed value }, warnings)
    else if name = fields.requiredMissions then
      match asBlock value with
      | some block =>
        let entries := blockScalars parsed block
        ({ mission with
            required := mission.required ++ entries.map Prod.fst
            requiredRanges := mission.requiredRanges ++ entries.map Prod.snd }, warnings)
      | none => unexpected
    else if name = fields.position then
      match parseU32Of parsed value with
      | some n =>
        ({ mission with position := some n, positionRange := some value.range }, warnings)
      | none => unexpected
    else if name = fields.completedBy then
      ({ mission with completedBy := some (scalar parsed value) }, warnings)
    else if name = fields.trigger ∧ (asBlock value).isSome then
      ({ mission with trigger := blockText parsed value }, warnings)
    else if name = fields.effect ∧ (asBlock value).isSome then
      ({ mission with effect := blockText parsed value }, warnings)
    else if name = fields.trigger ∨ name = fields.effect then unexpected
    else ({ mission with unknown := mission.unknown ++ [field] }, warnings)

def parseMission (key value : CstNode) (span : TextRange) (warnings : List Str) :
    Mission × List Str :=
  (blockProps value).foldl (missionField parsed spec)
    ({ Mission.new (scalar parsed key) with idRange := key.range, span }, warnings)

/-- One field or mission of a tree and the warnings so far. -/
def treeField (state : MissionTree × List Str) (prop : CstNode) : MissionTree × List Str :=
  match propParts prop with
  | none => state
  | some (key, value) =>
    let (tree, warnings) := state
    let name := scalar parsed key
    let field := RawField.mk name (valueText parsed value)
    let unexpected := ({ tree with unknown := tree.unknown ++ [field] },
      warnings ++ [unexpectedType name])
    let fields := spec.treeFields
    if name = fields.slot then
      match parseU32Of parsed value with
      | some n => ({ tree with slot := n }, warnings)
      | none => unexpected
    else if name = fields.generic then
      match parseBool parsed value with
      | some b => ({ tree with generic := b }, warnings)
      | none => unexpected
    else if name = fields.ai then
      match parseBool parsed value with
      | some b => ({ tree with ai := some b }, warnings)
      | none => unexpected
    else if name = fields.hasCountryShield then
      match parseBool parsed value with
      | some b => ({ tree with hasCountryShield := some b }, warnings)
      | none => unexpected
    else if name = fields.potential ∧ (asBlock value).isSome then
      ({ tree with potential := blockText parsed value }, warnings)
    else if name = fields.potentialOnLoad ∧ (asBlock value).isSome then
      ({ tree with potentialOnLoad := blockText parsed value }, warnings)
    else if name = fields.potential ∨ name = fields.potentialOnLoad then unexpected
    else
      match asBlock value with
      | some block =>
        let (mission, warnings) := parseMission parsed spec key block prop.range warnings
        ({ tree with missions := tree.missions ++ [mission] }, warnings)
      | none => ({ tree with unknown := tree.unknown ++ [field] }, warnings)

def parseTree (key value : CstNode) (span : TextRange) (warnings : List Str) :
    MissionTree × List Str :=
  (blockProps value).foldl (treeField parsed spec)
    ({ MissionTree.new (scalar parsed key) with idRange := key.range, span }, warnings)

/-- One node of the document: a tree, where it is a property with a block. -/
def documentNode (state : List MissionTree × List Str) (node : CstNode) :
    List MissionTree × List Str :=
  if node.kind = .property then
    match propParts node with
    | none => (state.1, state.2 ++ ["skipped malformed top-level property".toList])
    | some (key, value) =>
      match asBlock value with
      | none => state
      | some block =>
        let (tree, warnings) := parseTree parsed spec key block node.range state.2
        (state.1 ++ [tree], warnings)
  else state

def extractTrees (root : CstNode) : List MissionTree × List Str :=
  root.children.foldl (documentNode parsed spec) ([], [])

end

/-- Result of loading a mission file. -/
structure LoadedFile where
  file : MissionFile
  syntaxErrors : List SyntaxError
  warnings : List Str

/-- `parse_file_with_spec`. -/
def parseFileWithSpec (source : List Char) (spec : ViewSpec) : Option LoadedFile :=
  (parse .script source).bind fun parsed => parsed.root.map fun root =>
    let (trees, warnings) := extractTrees parsed spec root
    ⟨⟨trees⟩, parsed.errors, warnings⟩

/-- `parse_file`. -/
def parseFile (source : List Char) : Option LoadedFile := parseFileWithSpec source viewSpec

end ParadoxCode.Eu4
