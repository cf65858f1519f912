import ParadoxCode.Lib.FirstMatch
import ParadoxCode.Mission.Model

/-!
# Mission edits

`edit.rs`. An operation returns its result and the file it leaves behind, also when it fails. A
reference that an operation returns on success is left out.
-/

namespace ParadoxCode.Eu4

inductive EditError where
  | duplicateTreeId (id : Str)
  | duplicateMissionId (id : Str)
  | treeNotFound (id : Str)
  | missionNotFound (id : Str)
  | selfDependency (id : Str)
  | illegalEdgePlacement (mission required : Str)
  | emptyId
  deriving DecidableEq

/-- The result of an operation and the file behind it. -/
abbrev Edited := Except EditError Unit × MissionFile

namespace MissionFile

/-- `self.trees.iter().find(|t| t.id == tree_id)`. -/
def findTree (file : MissionFile) (treeId : Str) : Option MissionTree :=
  file.trees.find? fun tree => tree.id == treeId

/-- Changes the tree that `findTree` finds. -/
def updateTree (file : MissionFile) (treeId : Str) (f : MissionTree → MissionTree) : MissionFile :=
  ⟨updateFirst (fun tree => tree.id == treeId) f file.trees⟩

end MissionFile

namespace MissionTree

/-- `tree.missions.iter().find(|m| m.id == mission_id)`. -/
def findMission (tree : MissionTree) (missionId : Str) : Option Mission :=
  tree.missions.find? fun mission => mission.id == missionId

/-- Changes the mission that `findMission` finds. -/
def updateMission (tree : MissionTree) (missionId : Str) (f : Mission → Mission) : MissionTree :=
  { tree with missions := updateFirst (fun mission => mission.id == missionId) f tree.missions }

/-- The loop over the missions of a tree. -/
def mapMissions (tree : MissionTree) (f : Mission → Mission) : MissionTree :=
  { tree with missions := tree.missions.map f }

/-- `tree.missions.remove(index)`, where `index` is the position of that mission. -/
def takeMission (tree : MissionTree) (missionId : Str) : MissionTree :=
  { tree with missions := tree.missions.eraseP fun mission => mission.id == missionId }

/-- `tree.missions.iter().any(|m| m.id == id)`. -/
def hasMission (tree : MissionTree) (id : Str) : Bool :=
  tree.missions.any fun mission => mission.id == id

end MissionTree

namespace Mission

/-- `mission.required.retain(|r| r != id)`. -/
def dropRequired (id : Str) (mission : Mission) : Mission :=
  { mission with required := mission.required.filter (· != id) }

/-- `if required == old_id { new_id } else { required }`. -/
def renamed (oldId newId required : Str) : Str := if required = oldId then newId else required

def renameRequired (oldId newId : Str) (mission : Mission) : Mission :=
  { mission with required := mission.required.map (renamed oldId newId) }

end Mission

/-- `validate_id`, negated. -/
def isEmptyId (id : Str) : Bool := (trim id).isEmpty

namespace MissionFile

variable (file : MissionFile)

/-- `self.trees.iter().any(|t| t.id == id)`. -/
def hasTree (id : Str) : Bool := file.trees.any fun tree => tree.id == id

/-! ## Trees -/

def addTree (id : Str) : Edited :=
  if isEmptyId id then (.error .emptyId, file)
  else if file.hasTree id then (.error (.duplicateTreeId id), file)
  else (.ok (), ⟨file.trees ++ [MissionTree.new id]⟩)

def removeTree (treeId : Str) : Edited :=
  let trees := file.trees.filter fun tree => tree.id != treeId
  if trees.length = file.trees.length then (.error (.treeNotFound treeId), ⟨trees⟩)
  else (.ok (), ⟨trees⟩)

def renameTree (oldId newId : Str) : Edited :=
  if isEmptyId newId then (.error .emptyId, file)
  else if file.hasTree newId then (.error (.duplicateTreeId newId), file)
  else
    match file.findTree oldId with
    | none => (.error (.treeNotFound oldId), file)
    | some _ => (.ok (), file.updateTree oldId fun tree => { tree with id := newId })

/-! ## Missions -/

def addMission (treeId id : Str) : Edited :=
  if isEmptyId id then (.error .emptyId, file)
  else
    match file.findTree treeId with
    | none => (.error (.treeNotFound treeId), file)
    | some tree =>
      if tree.hasMission id then (.error (.duplicateMissionId id), file)
      else (.ok (), file.updateTree treeId fun tree =>
        { tree with missions := tree.missions ++ [Mission.new id] })

def removeMission (treeId missionId : Str) : Edited :=
  match file.findTree treeId with
  | none => (.error (.treeNotFound treeId), file)
  | some tree =>
    let before := tree.missions.length
    let missions := tree.missions.filter fun mission => mission.id != missionId
    if missions.length = before then
      (.error (.missionNotFound missionId), file.updateTree treeId fun tree =>
        { tree with missions })
    else
      (.ok (), file.updateTree treeId fun tree =>
        { tree with missions }.mapMissions (Mission.dropRequired missionId))

def renameMission (treeId oldId newId : Str) : Edited :=
  if isEmptyId newId then (.error .emptyId, file)
  else
    match file.findTree treeId with
    | none => (.error (.treeNotFound treeId), file)
    | some tree =>
      if tree.hasMission newId then (.error (.duplicateMissionId newId), file)
      else
        match tree.findMission oldId with
        | none => (.error (.missionNotFound oldId), file)
        | some _ =>
          let file := file.updateTree treeId fun tree =>
            tree.updateMission oldId fun mission => { mission with id := newId }
          (.ok (), ⟨file.trees.map fun tree => tree.mapMissions (.renameRequired oldId newId)⟩)

/-! ## Dependencies -/

/-- `check_edge_placement`. -/
def checkEdgePlacement (missionId requiredId : Str) : Except EditError Unit :=
  match file.locOf missionId, file.locOf requiredId with
  | some dependent, some prereq =>
    if isSpatiallyLegal prereq dependent then .ok ()
    else .error (.illegalEdgePlacement missionId requiredId)
  | _, _ => .ok ()

/-- Changes the mission that both lookups find. -/
def updateMission (treeId missionId : Str) (f : Mission → Mission) : MissionFile :=
  file.updateTree treeId fun tree => tree.updateMission missionId f

def addRequired (treeId missionId requiredId : Str) : Edited :=
  if requiredId = missionId then (.error (.selfDependency missionId), file)
  else
    match file.findTree treeId with
    | none => (.error (.treeNotFound treeId), file)
    | some tree =>
      match tree.findMission missionId with
      | none => (.error (.missionNotFound missionId), file)
      | some mission =>
        if requiredId ∈ mission.required then (.ok (), file)
        else
          match file.checkEdgePlacement missionId requiredId with
          | .error error => (.error error, file)
          | .ok () => (.ok (), file.updateMission treeId missionId fun mission =>
            { mission with required := mission.required ++ [requiredId] })

/-- The pattern of `tree_mut` and `mission_mut`: a change of one mission. -/
def onMission (treeId missionId : Str) (f : Mission → Mission) : Edited :=
  match file.findTree treeId with
  | none => (.error (.treeNotFound treeId), file)
  | some tree =>
    match tree.findMission missionId with
    | none => (.error (.missionNotFound missionId), file)
    | some _ => (.ok (), file.updateMission treeId missionId f)

def removeRequired (treeId missionId requiredId : Str) : Edited :=
  file.onMission treeId missionId (Mission.dropRequired requiredId)

/-- `required.into_iter().filter(|r| seen.insert(r.clone()))`. -/
def keepFirst (seen : List Str) : List Str → List Str
  | [] => []
  | required :: rest =>
    if required ∈ seen then keepFirst seen rest
    else required :: keepFirst (required :: seen) rest

/-- The first of the prerequisites that may not be placed there. -/
def checkEdgePlacements (missionId : Str) : List Str → Except EditError Unit
  | [] => .ok ()
  | required :: rest =>
    match file.checkEdgePlacement missionId required with
    | .error error => .error error
    | .ok () => checkEdgePlacements missionId rest

def setRequired (treeId missionId : Str) (required : List Str) : Edited :=
  match file.findTree treeId with
  | none => (.error (.treeNotFound treeId), file)
  | some tree =>
    match tree.findMission missionId with
    | none => (.error (.missionNotFound missionId), file)
    | some _ =>
      if missionId ∈ required then (.error (.selfDependency missionId), file)
      else
        match file.checkEdgePlacements missionId required with
        | .error error => (.error error, file)
        | .ok () => (.ok (), file.updateMission treeId missionId fun mission =>
          { mission with required := keepFirst [] required })

/-! ## Scalar and block fields -/

def setMissionPosition (treeId missionId : Str) (position : Option Nat) : Edited :=
  file.onMission treeId missionId fun mission => { mission with position }

/-- `text.filter(|s| !s.trim().is_empty())`. -/
def nonBlank (text : Option Str) : Option Str := text.filter fun s => !(trim s).isEmpty

def setMissionIcon (treeId missionId : Str) (icon : Option Str) : Edited :=
  file.onMission treeId missionId fun mission => { mission with icon := nonBlank icon }

def setMissionCompletedBy (treeId missionId : Str) (completedBy : Option Str) : Edited :=
  file.onMission treeId missionId fun mission =>
    { mission with completedBy := nonBlank completedBy }

/-- The block of a trimmed text, unless it is empty. -/
def blockOf (text : Option Str) : Option Block :=
  ((text.map trim).filter fun t => !t.isEmpty).map Block.mk

end MissionFile

/-- Opaque mission block fields. -/
inductive BlockField where
  | trigger
  | effect
  deriving DecidableEq

/-- Opaque tree block fields. -/
inductive TreeBlockField where
  | potential
  | potentialOnLoad
  deriving DecidableEq

namespace MissionFile

variable (file : MissionFile)

def setMissionBlock (treeId missionId : Str) (field : BlockField) (text : Option Str) : Edited :=
  file.onMission treeId missionId fun mission =>
    match field with
    | .trigger => { mission with trigger := blockOf text }
    | .effect => { mission with effect := blockOf text }

/-- The pattern of `tree_mut`: a change of one tree. -/
def onTree (treeId : Str) (f : MissionTree → MissionTree) : Edited :=
  match file.findTree treeId with
  | none => (.error (.treeNotFound treeId), file)
  | some _ => (.ok (), file.updateTree treeId f)

def setTreeBlock (treeId : Str) (field : TreeBlockField) (text : Option Str) : Edited :=
  file.onTree treeId fun tree =>
    match field with
    | .potential => { tree with potential := blockOf text }
    | .potentialOnLoad => { tree with potentialOnLoad := blockOf text }

def setTreeSlot (treeId : Str) (slot : Nat) : Edited :=
  file.onTree treeId fun tree => { tree with slot }

def setTreeGeneric (treeId : Str) (generic : Bool) : Edited :=
  file.onTree treeId fun tree => { tree with generic }

def setTreeAi (treeId : Str) (ai : Option Bool) : Edited :=
  file.onTree treeId fun tree => { tree with ai }

def setTreeCountryShield (treeId : Str) (shield : Option Bool) : Edited :=
  file.onTree treeId fun tree => { tree with hasCountryShield := shield }

/-! ## Group membership -/

def moveMission (treeId missionId targetTreeId : Str) : Edited :=
  if treeId = targetTreeId then (.ok (), file)
  else
    match file.findTree treeId with
    | none => (.error (.treeNotFound treeId), file)
    | some tree =>
      match tree.findMission missionId with
      | none => (.error (.missionNotFound missionId), file)
      | some mission =>
        -- the mission leaves its tree before the target is looked up
        let file := file.updateTree treeId fun tree => tree.takeMission missionId
        match file.findTree targetTreeId with
        | none => (.error (.treeNotFound targetTreeId), file)
        | some target =>
          if target.hasMission mission.id then (.error (.duplicateMissionId mission.id), file)
          else (.ok (), file.updateTree targetTreeId fun target =>
            { target with missions := target.missions ++ [mission] })

end MissionFile

/-! ## Operations -/

/-- An operation of the module with its arguments. -/
inductive Edit where
  | addTree (id : Str)
  | removeTree (treeId : Str)
  | renameTree (oldId newId : Str)
  | addMission (treeId id : Str)
  | removeMission (treeId missionId : Str)
  | renameMission (treeId oldId newId : Str)
  | addRequired (treeId missionId requiredId : Str)
  | removeRequired (treeId missionId requiredId : Str)
  | setRequired (treeId missionId : Str) (required : List Str)
  | setMissionPosition (treeId missionId : Str) (position : Option Nat)
  | setMissionIcon (treeId missionId : Str) (icon : Option Str)
  | setMissionCompletedBy (treeId missionId : Str) (completedBy : Option Str)
  | setMissionBlock (treeId missionId : Str) (field : BlockField) (text : Option Str)
  | setTreeBlock (treeId : Str) (field : TreeBlockField) (text : Option Str)
  | setTreeSlot (treeId : Str) (slot : Nat)
  | setTreeGeneric (treeId : Str) (generic : Bool)
  | setTreeAi (treeId : Str) (ai : Option Bool)
  | setTreeCountryShield (treeId : Str) (shield : Option Bool)
  | moveMission (treeId missionId targetTreeId : Str)
  deriving DecidableEq

def Edit.apply (edit : Edit) (file : MissionFile) : Edited :=
  match edit with
  | .addTree id => file.addTree id
  | .removeTree treeId => file.removeTree treeId
  | .renameTree oldId newId => file.renameTree oldId newId
  | .addMission treeId id => file.addMission treeId id
  | .removeMission treeId missionId => file.removeMission treeId missionId
  | .renameMission treeId oldId newId => file.renameMission treeId oldId newId
  | .addRequired treeId missionId requiredId => file.addRequired treeId missionId requiredId
  | .removeRequired treeId missionId requiredId => file.removeRequired treeId missionId requiredId
  | .setRequired treeId missionId required => file.setRequired treeId missionId required
  | .setMissionPosition treeId missionId position =>
    file.setMissionPosition treeId missionId position
  | .setMissionIcon treeId missionId icon => file.setMissionIcon treeId missionId icon
  | .setMissionCompletedBy treeId missionId completedBy =>
    file.setMissionCompletedBy treeId missionId completedBy
  | .setMissionBlock treeId missionId field text => file.setMissionBlock treeId missionId field text
  | .setTreeBlock treeId field text => file.setTreeBlock treeId field text
  | .setTreeSlot treeId slot => file.setTreeSlot treeId slot
  | .setTreeGeneric treeId generic => file.setTreeGeneric treeId generic
  | .setTreeAi treeId ai => file.setTreeAi treeId ai
  | .setTreeCountryShield treeId shield => file.setTreeCountryShield treeId shield
  | .moveMission treeId missionId targetTreeId => file.moveMission treeId missionId targetTreeId

end ParadoxCode.Eu4
