import ParadoxCode.Text

/-!
# The mission model

`model.rs` and `graph.rs`: mission files, trees and missions, and the effective layout of a file. A
string is the list of its characters.
-/

namespace ParadoxCode.Eu4

/-- An opaque block value, braces included. -/
structure Block where
  text : Str
  deriving DecidableEq

/-- A field the editor does not model, kept verbatim. -/
structure RawField where
  name : Str
  value : Str
  deriving DecidableEq

/-- One mission inside a tree. -/
structure Mission where
  id : Str
  idRange : TextRange
  icon : Option Str
  missionType : Option Str
  provincesToHighlight : Option Block
  required : List Str
  requiredRanges : List TextRange
  position : Option Nat
  positionRange : Option TextRange
  completedBy : Option Str
  trigger : Option Block
  effect : Option Block
  unknown : List RawField
  span : TextRange
  deriving DecidableEq

/-- One top-level mission tree. -/
structure MissionTree where
  id : Str
  idRange : TextRange
  slot : Nat
  generic : Bool
  ai : Option Bool
  hasCountryShield : Option Bool
  potential : Option Block
  potentialOnLoad : Option Block
  missions : List Mission
  unknown : List RawField
  span : TextRange
  deriving DecidableEq

/-- A parsed mission file. -/
structure MissionFile where
  trees : List MissionTree
  deriving DecidableEq

/-- `MissionFile::default`. -/
def MissionFile.empty : MissionFile := ⟨[]⟩

/-- The tree that `add_tree` creates. -/
def MissionTree.new (id : Str) : MissionTree where
  id
  idRange := .empty 0
  slot := 1
  generic := false
  ai := none
  hasCountryShield := none
  potential := none
  potentialOnLoad := none
  missions := []
  unknown := []
  span := .empty 0

/-- The mission that `add_mission` creates. -/
def Mission.new (id : Str) : Mission where
  id
  idRange := .empty 0
  icon := none
  missionType := none
  provincesToHighlight := none
  required := []
  requiredRanges := []
  position := none
  positionRange := none
  completedBy := none
  trigger := none
  effect := none
  unknown := []
  span := .empty 0

/-- The missions of all trees. -/
def MissionFile.missions (file : MissionFile) : List Mission :=
  file.trees.flatMap MissionTree.missions

def MissionFile.missionIds (file : MissionFile) : List Str := file.missions.map Mission.id

/-! ## The effective layout -/

/-- Effective grid location of one mission in a file. -/
structure MissionLoc where
  tree : Nat
  mission : Nat
  slot : Nat
  position : Nat
  deriving DecidableEq

/-- The locations of the missions of one tree. The position of a mission that has none written is
the previous one plus one, in `u32`. -/
def treeLayout (tree slot : Nat) : Nat → Nat → List Mission → List MissionLoc
  | _, _, [] => []
  | index, nextPosition, mission :: missions =>
    let position := mission.position.getD nextPosition
    ⟨tree, index, slot, position⟩ :: treeLayout tree slot (index + 1)
      (asU32 (position + 1)) missions

/-- `effective_layout`. -/
def effectiveLayout (file : MissionFile) : List MissionLoc :=
  file.trees.zipIdx.flatMap fun (tree, index) => treeLayout index tree.slot 0 1 tree.missions

/-- `is_spatially_legal`. -/
def isSpatiallyLegal (prereq dependent : MissionLoc) : Bool :=
  prereq.position == dependent.position - 1 ||
    (prereq.slot == dependent.slot && prereq.position < dependent.position)

/-- The id of the mission at a location. -/
def MissionFile.idAt (file : MissionFile) (loc : MissionLoc) : Option Str :=
  (file.trees[loc.tree]?.bind fun tree => tree.missions[loc.mission]?).map Mission.id

/-- The location of the last mission of that id: later entries of the map override earlier ones. -/
def MissionFile.locOf (file : MissionFile) (id : Str) : Option MissionLoc :=
  (effectiveLayout file).reverse.find? fun loc => file.idAt loc == some id

end ParadoxCode.Eu4
