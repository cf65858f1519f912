import ParadoxCode.Lib.Trace
import ParadoxCode.Mission.References

/-!
# Successful edits

What each operation has checked when it succeeds, and the file behind it.
-/

namespace ParadoxCode.Eu4

/-- The step of a successful edit. -/
def Edit.step (file : MissionFile) (edit : Edit) : Option MissionFile :=
  match edit.apply file with
  | (.ok (), changed) => some changed
  | (.error _, _) => none

theorem Edit.step_eq_some_iff {file changed : MissionFile} {edit : Edit} :
    edit.step file = some changed ↔ edit.apply file = (.ok (), changed) := by
  unfold Edit.step
  rcases edit.apply file with ⟨_ | ⟨⟩, changed'⟩ <;> simp

namespace MissionFile

variable {file changed : MissionFile} {treeId missionId : Str}

theorem onTree_ok {f : MissionTree → MissionTree} (h : file.onTree treeId f = (.ok (), changed)) :
    ∃ tree, file.findTree treeId = some tree ∧ changed = file.updateTree treeId f := by
  unfold onTree at h
  cases htree : file.findTree treeId with
  | none => rw [htree] at h; cases h
  | some tree =>
    rw [htree] at h
    cases h
    exact ⟨tree, rfl, rfl⟩

theorem onMission_ok {f : Mission → Mission}
    (h : file.onMission treeId missionId f = (.ok (), changed)) :
    ∃ tree, file.findTree treeId = some tree ∧
      ∃ mission, tree.findMission missionId = some mission ∧
        changed = file.updateMission treeId missionId f := by
  unfold onMission at h
  cases htree : file.findTree treeId with
  | none => rw [htree] at h; cases h
  | some tree =>
    rw [htree] at h
    dsimp only at h
    cases hmission : tree.findMission missionId with
    | none => rw [hmission] at h; cases h
    | some mission =>
      rw [hmission] at h
      cases h
      exact ⟨tree, rfl, mission, hmission, rfl⟩

theorem addTree_ok {id : Str} (h : file.addTree id = (.ok (), changed)) :
    file.hasTree id = false ∧ changed = ⟨file.trees ++ [MissionTree.new id]⟩ := by
  unfold addTree at h
  split_ifs at h with hempty hhas
  · cases h
  · cases h
  · cases h
    exact ⟨Bool.eq_false_iff.mpr hhas, rfl⟩

theorem removeTree_ok (h : file.removeTree treeId = (.ok (), changed)) :
    changed = ⟨file.trees.filter fun tree => tree.id != treeId⟩ := by
  unfold removeTree at h
  dsimp only at h
  split_ifs at h with hlength
  · cases h
  · cases h
    rfl

theorem renameTree_ok {oldId newId : Str} (h : file.renameTree oldId newId = (.ok (), changed)) :
    file.hasTree newId = false ∧ (∃ tree, file.findTree oldId = some tree) ∧
      changed = file.updateTree oldId fun tree => { tree with id := newId } := by
  unfold renameTree at h
  split_ifs at h with hempty hhas
  · cases h
  · cases h
  · cases htree : file.findTree oldId with
    | none => rw [htree] at h; cases h
    | some tree =>
      rw [htree] at h
      cases h
      exact ⟨Bool.eq_false_iff.mpr hhas, ⟨tree, rfl⟩, rfl⟩

theorem addMission_ok {id : Str} (h : file.addMission treeId id = (.ok (), changed)) :
    ∃ tree, file.findTree treeId = some tree ∧ tree.hasMission id = false ∧
      changed = file.updateTree treeId fun tree =>
        { tree with missions := tree.missions ++ [Mission.new id] } := by
  unfold addMission at h
  split_ifs at h with hempty
  · cases h
  · cases htree : file.findTree treeId with
    | none => rw [htree] at h; cases h
    | some tree =>
      rw [htree] at h
      dsimp only at h
      split_ifs at h with hhas
      · cases h
      · cases h
        exact ⟨tree, rfl, Bool.eq_false_iff.mpr hhas, rfl⟩

theorem removeMission_ok (h : file.removeMission treeId missionId = (.ok (), changed)) :
    ∃ tree, file.findTree treeId = some tree ∧
      changed = file.updateTree treeId fun tree' => MissionTree.mapMissions
        { tree' with missions := tree.missions.filter fun mission => mission.id != missionId }
        (Mission.dropRequired missionId) := by
  unfold removeMission at h
  cases htree : file.findTree treeId with
  | none => rw [htree] at h; cases h
  | some tree =>
    rw [htree] at h
    dsimp only at h
    split_ifs at h with hlength
    · cases h
    · cases h
      exact ⟨tree, rfl, rfl⟩

theorem addRequired_ok {requiredId : Str}
    (h : file.addRequired treeId missionId requiredId = (.ok (), changed)) :
    requiredId ≠ missionId ∧ ∃ tree, file.findTree treeId = some tree ∧
      ∃ mission, tree.findMission missionId = some mission ∧
        ((requiredId ∈ mission.required ∧ changed = file) ∨
          (requiredId ∉ mission.required ∧
            changed = file.updateMission treeId missionId fun mission =>
              { mission with required := mission.required ++ [requiredId] })) := by
  unfold addRequired at h
  split_ifs at h with hself
  · cases h
  · cases htree : file.findTree treeId with
    | none => rw [htree] at h; cases h
    | some tree =>
      rw [htree] at h
      dsimp only at h
      cases hmission : tree.findMission missionId with
      | none => rw [hmission] at h; cases h
      | some mission =>
        rw [hmission] at h
        dsimp only at h
        refine ⟨hself, tree, rfl, mission, hmission, ?_⟩
        split_ifs at h with hmem
        · cases h
          exact Or.inl ⟨hmem, rfl⟩
        · split at h
          · cases h
          · cases h
            exact Or.inr ⟨hmem, rfl⟩

theorem setRequired_ok {required : List Str}
    (h : file.setRequired treeId missionId required = (.ok (), changed)) :
    missionId ∉ required ∧ ∃ tree, file.findTree treeId = some tree ∧
      ∃ mission, tree.findMission missionId = some mission ∧
        changed = file.updateMission treeId missionId fun mission =>
          { mission with required := keepFirst [] required } := by
  unfold setRequired at h
  cases htree : file.findTree treeId with
  | none => rw [htree] at h; cases h
  | some tree =>
    rw [htree] at h
    dsimp only at h
    cases hmission : tree.findMission missionId with
    | none => rw [hmission] at h; cases h
    | some mission =>
      rw [hmission] at h
      dsimp only at h
      split_ifs at h with hself
      · cases h
      · split at h
        · cases h
        · cases h
          exact ⟨hself, tree, rfl, mission, hmission, rfl⟩

theorem moveMission_ok {targetTreeId : Str}
    (h : file.moveMission treeId missionId targetTreeId = (.ok (), changed)) :
    changed = file ∨ (treeId ≠ targetTreeId ∧ ∃ tree, file.findTree treeId = some tree ∧
      ∃ mission, tree.findMission missionId = some mission ∧
        ∃ target, file.findTree targetTreeId = some target ∧
          target.hasMission missionId = false ∧
          changed = (file.updateTree treeId fun tree => tree.takeMission missionId).updateTree
            targetTreeId fun target =>
              { target with missions := target.missions ++ [mission] }) := by
  unfold moveMission at h
  split_ifs at h with hne
  · cases h
    exact Or.inl rfl
  · cases htree : file.findTree treeId with
    | none => rw [htree] at h; cases h
    | some tree =>
      rw [htree] at h
      dsimp only at h
      cases hmission : tree.findMission missionId with
      | none => rw [hmission] at h; cases h
      | some mission =>
        rw [hmission] at h
        dsimp only at h
        rw [findTree_updateTree_of_ne (f := fun tree => tree.takeMission missionId) hne
          fun _ => rfl] at h
        cases htarget : file.findTree targetTreeId with
        | none => rw [htarget] at h; cases h
        | some target =>
          rw [htarget, findMission_id hmission] at h
          dsimp only at h
          split_ifs at h with hhas
          · cases h
          · cases h
            exact Or.inr ⟨hne, tree, rfl, mission, hmission, target, rfl,
              Bool.eq_false_iff.mpr hhas, rfl⟩

end MissionFile

end ParadoxCode.Eu4
