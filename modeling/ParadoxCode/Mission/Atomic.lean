import ParadoxCode.Mission.Edit

/-!
# Failed edits

An operation that fails leaves the file alone, except for one: `move_mission` takes the mission out
of its tree before it looks the target up.
-/

namespace ParadoxCode.Eu4

/-- An operation that fails leaves the file as it was. -/
def Atomic (file : MissionFile) (edited : Edited) : Prop :=
  ∀ error, edited.1 = .error error → edited.2 = file

namespace Atomic

variable {file : MissionFile}

theorem ok {changed : MissionFile} : Atomic file (.ok (), changed) := by
  intro error h
  cases h

theorem error {error : EditError} : Atomic file (.error error, file) := fun _ _ => rfl

theorem onTree (treeId : Str) (f : MissionTree → MissionTree) :
    Atomic file (file.onTree treeId f) := by
  unfold MissionFile.onTree
  split
  · exact error
  · exact ok

theorem onMission (treeId missionId : Str) (f : Mission → Mission) :
    Atomic file (file.onMission treeId missionId f) := by
  unfold MissionFile.onMission
  split
  · exact error
  · split
    · exact error
    · exact ok

theorem addTree (id : Str) : Atomic file (file.addTree id) := by
  unfold MissionFile.addTree
  split_ifs
  · exact error
  · exact error
  · exact ok

theorem removeTree (treeId : Str) : Atomic file (file.removeTree treeId) := by
  unfold MissionFile.removeTree
  dsimp only
  split_ifs with h
  · intro _ _
    have hself := List.filter_eq_self.mpr (List.length_filter_eq_length_iff.mp h)
    exact congrArg MissionFile.mk hself
  · exact ok

theorem renameTree (oldId newId : Str) : Atomic file (file.renameTree oldId newId) := by
  unfold MissionFile.renameTree
  split_ifs
  · exact error
  · exact error
  · split
    · exact error
    · exact ok

theorem addMission (treeId id : Str) : Atomic file (file.addMission treeId id) := by
  unfold MissionFile.addMission
  split_ifs
  · exact error
  · split
    · exact error
    · split_ifs
      · exact error
      · exact ok

/-- Nothing is filtered out where the mission is missing. -/
theorem removeMission (treeId missionId : Str) :
    Atomic file (file.removeMission treeId missionId) := by
  unfold MissionFile.removeMission
  split
  · exact error
  · rename_i tree htree
    dsimp only
    split_ifs with h
    · intro _ _
      have hself := List.filter_eq_self.mpr (List.length_filter_eq_length_iff.mp h)
      refine congrArg MissionFile.mk (updateFirst_eq_self fun found hfound => ?_)
      obtain rfl : tree = found := Option.some.inj (htree.symm.trans hfound)
      rw [hself]
    · exact ok

theorem renameMission (treeId oldId newId : Str) :
    Atomic file (file.renameMission treeId oldId newId) := by
  unfold MissionFile.renameMission
  split_ifs
  · exact error
  · split
    · exact error
    · split_ifs
      · exact error
      · split
        · exact error
        · exact ok

theorem addRequired (treeId missionId requiredId : Str) :
    Atomic file (file.addRequired treeId missionId requiredId) := by
  unfold MissionFile.addRequired
  split_ifs
  · exact error
  · split
    · exact error
    · split
      · exact error
      · split_ifs
        · exact ok
        · split
          · exact error
          · exact ok

theorem setRequired (treeId missionId : Str) (required : List Str) :
    Atomic file (file.setRequired treeId missionId required) := by
  unfold MissionFile.setRequired
  split
  · exact error
  · split
    · exact error
    · split_ifs
      · exact error
      · split
        · exact error
        · exact ok

end Atomic

/-! ## Moving a mission -/

namespace MissionFile

variable {file : MissionFile} {treeId missionId targetTreeId : Str}

/-- A change of a tree that keeps its id is not seen by the lookup of another one. -/
theorem findTree_updateTree_of_ne {f : MissionTree → MissionTree} (hne : treeId ≠ targetTreeId)
    (hf : ∀ tree, (f tree).id = tree.id) :
    (file.updateTree treeId f).findTree targetTreeId = file.findTree targetTreeId := by
  refine find?_updateFirst_of_ne fun tree htree => ?_
  rw [hf tree, beq_iff_eq.mp htree]
  exact ⟨beq_false_of_ne hne, beq_false_of_ne hne⟩

/-- The mission is there to be moved, but its target is missing or holds a mission of its id. -/
def Strands (file : MissionFile) (treeId missionId targetTreeId : Str) : Prop :=
  treeId ≠ targetTreeId ∧
    (∃ tree, file.findTree treeId = some tree ∧ ∃ mission,
      tree.findMission missionId = some mission) ∧
    ∀ target, file.findTree targetTreeId = some target → target.hasMission missionId = true

theorem findMission_id {tree : MissionTree} {mission : Mission}
    (h : tree.findMission missionId = some mission) : mission.id = missionId := by
  have := List.find?_some h
  exact beq_iff_eq.mp this

/-- The file without the mission that is moved. -/
theorem erase_ne {tree : MissionTree} (htree : file.findTree treeId = some tree) {mission : Mission}
    (hmission : tree.findMission missionId = some mission) :
    (file.updateTree treeId fun tree => tree.takeMission missionId) ≠ file := by
  intro h
  obtain ⟨-, before, after, heq, -, hupdate⟩ := split_of_find? htree
  have htrees := congrArg MissionFile.trees h
  rw [updateTree, hupdate, heq, List.append_cancel_left_eq, List.cons.injEq] at htrees
  have hlength := congrArg (fun tree => tree.missions.length) htrees.1
  have hmem := List.mem_of_find?_eq_some hmission
  have hfound : (mission.id == missionId) = true := by rw [findMission_id hmission,
    beq_self_eq_true]
  dsimp only [MissionTree.takeMission] at hlength
  rw [List.length_eraseP_of_mem hmem hfound] at hlength
  have hpos := List.length_pos_of_mem hmem
  omega

theorem moveMission_atomic_iff :
    Atomic file (file.moveMission treeId missionId targetTreeId) ↔
      ¬ file.Strands treeId missionId targetTreeId := by
  unfold moveMission
  split_ifs with hne
  · exact iff_of_true Atomic.ok fun h => h.1 hne
  · split
    · rename_i htree
      exact iff_of_true Atomic.error fun ⟨_, ⟨_, h, _⟩, _⟩ => by rw [htree] at h; cases h
    · rename_i tree htree
      split
      · rename_i hmission
        refine iff_of_true Atomic.error fun ⟨_, ⟨_, h, _, h'⟩, _⟩ => ?_
        obtain rfl := Option.some.inj (htree.symm.trans h)
        rw [hmission] at h'
        cases h'
      · rename_i mission hmission
        dsimp only
        have hstrands (hall : ∀ target, file.findTree targetTreeId = some target →
            target.hasMission missionId = true) : file.Strands treeId missionId targetTreeId :=
          ⟨hne, ⟨tree, htree, mission, hmission⟩, hall⟩
        rw [findTree_updateTree_of_ne (f := fun tree => tree.takeMission missionId)
          hne fun _ => rfl]
        split
        · rename_i htarget
          refine iff_of_false (fun h => erase_ne htree hmission (h _ rfl)) (not_not_intro ?_)
          exact hstrands fun target h => by rw [htarget] at h; cases h
        · rename_i target htarget
          rw [findMission_id hmission]
          split_ifs with hhas
          · refine iff_of_false (fun h => erase_ne htree hmission (h _ rfl)) (not_not_intro ?_)
            refine hstrands fun target' h => ?_
            obtain rfl := Option.some.inj (htarget.symm.trans h)
            exact hhas
          · exact iff_of_true Atomic.ok fun h => hhas (h.2.2 target htarget)

end MissionFile

/-- The edits that fail behind a change. -/
def Edit.Strands (file : MissionFile) : Edit → Prop
  | .moveMission treeId missionId targetTreeId => file.Strands treeId missionId targetTreeId
  | _ => False

/-- An edit that fails leaves the file alone, unless it moves a mission to a tree that cannot take
it. -/
theorem atomic_iff (file : MissionFile) (edit : Edit) :
    (∀ error, (edit.apply file).1 = .error error → (edit.apply file).2 = file) ↔
      ¬ edit.Strands file := by
  change Atomic file (edit.apply file) ↔ ¬ edit.Strands file
  cases edit with
  | moveMission treeId missionId targetTreeId => exact MissionFile.moveMission_atomic_iff
  | addTree id => exact iff_of_true (Atomic.addTree id) not_false
  | removeTree treeId => exact iff_of_true (Atomic.removeTree treeId) not_false
  | renameTree oldId newId => exact iff_of_true (Atomic.renameTree oldId newId) not_false
  | addMission treeId id => exact iff_of_true (Atomic.addMission treeId id) not_false
  | removeMission treeId missionId =>
    exact iff_of_true (Atomic.removeMission treeId missionId) not_false
  | renameMission treeId oldId newId =>
    exact iff_of_true (Atomic.renameMission treeId oldId newId) not_false
  | addRequired treeId missionId requiredId =>
    exact iff_of_true (Atomic.addRequired treeId missionId requiredId) not_false
  | setRequired treeId missionId required =>
    exact iff_of_true (Atomic.setRequired treeId missionId required) not_false
  | removeRequired treeId missionId requiredId =>
    exact iff_of_true (Atomic.onMission _ _ _) not_false
  | setMissionPosition treeId missionId position =>
    exact iff_of_true (Atomic.onMission _ _ _) not_false
  | setMissionIcon treeId missionId icon => exact iff_of_true (Atomic.onMission _ _ _) not_false
  | setMissionCompletedBy treeId missionId completedBy =>
    exact iff_of_true (Atomic.onMission _ _ _) not_false
  | setMissionBlock treeId missionId field text =>
    exact iff_of_true (Atomic.onMission _ _ _) not_false
  | setTreeBlock treeId field text => exact iff_of_true (Atomic.onTree _ _) not_false
  | setTreeSlot treeId slot => exact iff_of_true (Atomic.onTree _ _) not_false
  | setTreeGeneric treeId generic => exact iff_of_true (Atomic.onTree _ _) not_false
  | setTreeAi treeId ai => exact iff_of_true (Atomic.onTree _ _) not_false
  | setTreeCountryShield treeId shield => exact iff_of_true (Atomic.onTree _ _) not_false

/-- A mission `a` in a tree `t`, moved to a tree that does not exist, is gone. -/
theorem not_atomic_moveMission : ¬ ∀ (file : MissionFile) (edit : Edit),
    ∀ error, (edit.apply file).1 = .error error → (edit.apply file).2 = file := by
  intro h
  have := h ⟨[{ MissionTree.new ['t'] with missions := [Mission.new ['a']] }]⟩
    (.moveMission ['t'] ['a'] ['g']) (.treeNotFound ['g']) (by decide)
  revert this
  decide

end ParadoxCode.Eu4
