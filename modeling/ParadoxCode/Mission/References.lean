import Mathlib.Data.List.Nodup
import ParadoxCode.Mission.Atomic

/-!
# References

A mission is referred to by its id. `rename_mission` follows the references of the whole file;
`remove_mission` removes those of its own tree only.
-/

namespace ParadoxCode.Eu4

open Mission

namespace MissionFile

variable {file : MissionFile} {treeId oldId newId : Str}

/-- The dependency edges: a mission and a mission it requires. -/
def edges (file : MissionFile) : List (Str × Str) :=
  file.missions.flatMap fun mission => mission.required.map fun required => (mission.id, required)

/-- The mission under the new name, in its id and in its references. -/
def renameIn (oldId newId : Str) (mission : Mission) : Mission :=
  { mission with
    id := renamed oldId newId mission.id
    required := mission.required.map (renamed oldId newId) }

theorem edges_of_missions {changed : MissionFile}
    (h : changed.missions = file.missions.map (renameIn oldId newId)) :
    changed.edges =
      file.edges.map fun edge => (renamed oldId newId edge.1, renamed oldId newId edge.2) := by
  unfold edges
  rw [h, List.flatMap_map, List.map_flatMap]
  congr 1
  funext mission
  rw [renameIn, List.map_map, List.map_map]
  rfl

theorem missionIds_of_missions {changed : MissionFile}
    (h : changed.missions = file.missions.map (renameIn oldId newId)) :
    changed.missionIds = file.missionIds.map (renamed oldId newId) := by
  unfold missionIds
  rw [h, List.map_map, List.map_map]
  rfl

/-- What a successful renaming finds, and the file behind it. -/
theorem renameMission_ok (h : (file.renameMission treeId oldId newId).1 = .ok ()) :
    ∃ tree, file.findTree treeId = some tree ∧ tree.hasMission newId = false ∧
      (∃ mission, tree.findMission oldId = some mission) ∧
      (file.renameMission treeId oldId newId).2 =
        ⟨(file.updateMission treeId oldId fun mission => { mission with id := newId }).trees.map
          fun tree => tree.mapMissions (.renameRequired oldId newId)⟩ := by
  unfold renameMission at h ⊢
  split_ifs at h ⊢ with hempty
  cases htree : file.findTree treeId with
  | none => rw [htree] at h; cases h
  | some tree =>
    rw [htree] at h
    dsimp only at h ⊢
    split_ifs at h ⊢ with hhas
    cases hmission : tree.findMission oldId with
    | none => rw [hmission] at h; cases h
    | some mission =>
      exact ⟨tree, rfl, Bool.eq_false_iff.mpr hhas, ⟨mission, hmission⟩, rfl⟩

theorem renamed_of_ne {id : Str} (h : id ≠ oldId) : renamed oldId newId id = id := if_neg h

/-- The mission that both lookups find, with the missions before and behind it. -/
theorem missions_updateMission {missionId : Str} {tree : MissionTree}
    (htree : file.findTree treeId = some tree) {mission : Mission}
    (hmission : tree.findMission missionId = some mission) :
    ∃ before after, file.missions = before ++ mission :: after ∧
      ∀ f, (file.updateMission treeId missionId f).missions = before ++ f mission :: after := by
  obtain ⟨-, before, after, htrees, -, hupdate⟩ := split_of_find? htree
  obtain ⟨-, front, back, hmissions, -, hupdate'⟩ := split_of_find? hmission
  refine ⟨before.flatMap MissionTree.missions ++ front, back ++ after.flatMap MissionTree.missions,
    ?_, fun f => ?_⟩
  · rw [missions, htrees, List.flatMap_append, List.flatMap_cons, hmissions]
    simp only [List.append_assoc, List.cons_append]
  · rw [missions, updateMission, updateTree, hupdate, List.flatMap_append, List.flatMap_cons,
      MissionTree.updateMission, hupdate']
    simp only [List.append_assoc, List.cons_append]

theorem missions_map (f : Mission → Mission) (trees : List MissionTree) :
    missions ⟨trees.map fun tree => tree.mapMissions f⟩ = (missions ⟨trees⟩).map f := by
  unfold missions
  rw [List.flatMap_map, List.map_flatMap]
  rfl

/-- Where the ids of the missions differ, a renaming renames in every mission. -/
theorem missions_renameMission (hids : file.missionIds.Nodup)
    (h : (file.renameMission treeId oldId newId).1 = .ok ()) :
    (file.renameMission treeId oldId newId).2.missions =
      file.missions.map (renameIn oldId newId) := by
  obtain ⟨tree, htree, -, ⟨mission, hmission⟩, heq⟩ := renameMission_ok h
  obtain ⟨before, after, hmissions, hupdate⟩ := missions_updateMission htree hmission
  have hid : mission.id = oldId := findMission_id hmission
  rw [missionIds, hmissions, List.map_append, List.map_cons, hid, List.nodup_middle,
    List.nodup_cons, ← List.map_append] at hids
  have hother : ∀ other ∈ before ++ after,
      other.renameRequired oldId newId = renameIn oldId newId other := by
    intro other hmem
    have hne : other.id ≠ oldId := fun h => hids.1 (List.mem_map.mpr ⟨other, hmem, h⟩)
    rw [renameIn, renamed_of_ne hne]
    rfl
  have hself : Mission.renameRequired oldId newId { mission with id := newId } =
      renameIn oldId newId mission := by
    rw [renameIn, hid, renamed, if_pos rfl]
    rfl
  rw [heq, missions_map, hupdate, hmissions, List.map_append, List.map_append, List.map_cons,
    List.map_cons, hself,
    List.map_congr_left fun other h => hother other (List.mem_append_left _ h),
    List.map_congr_left fun other h => hother other (List.mem_append_right _ h)]

/-- Removing a mission leaves no reference to it. -/
def RemovalCleans (file : MissionFile) (treeId missionId : Str) : Prop :=
  (file.removeMission treeId missionId).1 = .ok () →
    ∀ tree ∈ (file.removeMission treeId missionId).2.trees, ∀ mission ∈ tree.missions,
      missionId ∉ mission.required

/-- Renaming a mission to an id that no other mission has renames it in the dependency edges and
keeps the ids of the missions apart. -/
def RenamingFollows (file : MissionFile) (treeId oldId newId : Str) : Prop :=
  (file.renameMission treeId oldId newId).1 = .ok () → (newId ∈ file.missionIds → newId = oldId) →
    (file.renameMission treeId oldId newId).2.edges =
        file.edges.map (fun edge => (renamed oldId newId edge.1, renamed oldId newId edge.2)) ∧
      (file.renameMission treeId oldId newId).2.missionIds.Nodup

theorem renamingFollows (hids : file.missionIds.Nodup) (treeId oldId newId : Str) :
    file.RenamingFollows treeId oldId newId := by
  intro h hnew
  have hmissions := missions_renameMission hids h
  refine ⟨edges_of_missions hmissions, ?_⟩
  rw [missionIds_of_missions hmissions]
  refine List.Nodup.map_on (fun x hx y hy hxy => ?_) hids
  unfold renamed at hxy
  split_ifs at hxy with hx' hy' hy'
  · rw [hx', hy']
  · rw [hx', ← hnew (hxy ▸ hy), hxy]
  · rw [hy', ← hnew (hxy ▸ hx), hxy]
  · exact hxy

/-- The mission is there to be removed, and a mission outside its tree requires it. -/
def ListedElsewhere (file : MissionFile) (treeId missionId : Str) : Prop :=
  (∃ tree, file.findTree treeId = some tree ∧ tree.hasMission missionId = true) ∧
    ∃ other ∈ file.trees.eraseP fun tree => tree.id == treeId, ∃ mission ∈ other.missions,
      missionId ∈ mission.required

/-- The file behind a removal that finds its mission. -/
theorem removeMission_of_mem {missionId : Str} {tree : MissionTree}
    (htree : file.findTree treeId = some tree) (hhas : tree.hasMission missionId = true) :
    file.removeMission treeId missionId = (.ok (), file.updateTree treeId fun tree' =>
      MissionTree.mapMissions
        { tree' with missions := tree.missions.filter fun mission => mission.id != missionId }
        (Mission.dropRequired missionId)) := by
  unfold removeMission
  rw [htree]
  dsimp only
  rw [if_neg]
  intro hlength
  obtain ⟨mission, hmem, hid⟩ := List.any_eq_true.mp hhas
  have := List.length_filter_eq_length_iff.mp hlength mission hmem
  rw [bne, hid] at this
  cases this

theorem removeMission_of_not_mem {missionId : Str}
    (h : ∀ tree, file.findTree treeId = some tree → tree.hasMission missionId = false) :
    (file.removeMission treeId missionId).1 ≠ .ok () := by
  unfold removeMission
  cases htree : file.findTree treeId with
  | none => simp
  | some tree =>
    dsimp only
    rw [if_pos]
    · simp
    · refine List.length_filter_eq_length_iff.mpr fun mission hmem => ?_
      have := List.any_eq_false.mp (h tree htree) mission hmem
      rw [bne, Bool.eq_false_iff.mpr this]
      rfl

theorem removalCleans_iff {missionId : Str} :
    file.RemovalCleans treeId missionId ↔ ¬ file.ListedElsewhere treeId missionId := by
  by_cases h : ∃ tree, file.findTree treeId = some tree ∧ tree.hasMission missionId = true
  · obtain ⟨tree, htree, hhas⟩ := h
    obtain ⟨-, before, after, htrees, herase, hupdate⟩ := split_of_find? htree
    have hclean : ∀ mission ∈ MissionTree.missions (MissionTree.mapMissions
        { tree with missions := tree.missions.filter fun mission => mission.id != missionId }
        (Mission.dropRequired missionId)), missionId ∉ mission.required := by
      intro mission hmem
      obtain ⟨mission, -, rfl⟩ := List.mem_map.mp hmem
      simp [Mission.dropRequired]
    unfold RemovalCleans ListedElsewhere
    rw [removeMission_of_mem htree hhas, herase]
    dsimp only [updateTree]
    rw [hupdate]
    constructor
    · rintro h ⟨-, other, hother, mission, hmission, hmem⟩
      refine h rfl other ?_ mission hmission hmem
      rw [List.mem_append] at hother
      rw [List.mem_append, List.mem_cons]
      exact hother.imp_right Or.inr
    · intro h _ other hother mission hmission hmem
      rw [List.mem_append, List.mem_cons] at hother
      rcases hother with hother | rfl | hother
      · exact h ⟨⟨tree, htree, hhas⟩, other, List.mem_append_left _ hother, mission, hmission, hmem⟩
      · exact hclean mission hmission hmem
      · exact h ⟨⟨tree, htree, hhas⟩, other, List.mem_append_right _ hother, mission,
          hmission, hmem⟩
  · refine iff_of_true (fun hok => absurd hok (removeMission_of_not_mem fun tree htree => ?_))
      fun hlisted => h hlisted.1
    exact Bool.eq_false_iff.mpr fun hhas => h ⟨tree, htree, hhas⟩

/-- In a file whose missions have ids of their own, removing and renaming keep the references,
unless a mission outside the tree requires the removed one. -/
theorem references_iff (hids : file.missionIds.Nodup) {treeId missionId treeId' oldId newId : Str} :
    (file.RemovalCleans treeId missionId ∧ file.RenamingFollows treeId' oldId newId) ↔
      ¬ file.ListedElsewhere treeId missionId := by
  rw [and_iff_left (renamingFollows hids treeId' oldId newId)]
  exact removalCleans_iff

/-- A tree `s` with the mission `a`, and a tree `t` whose mission `b` requires it. -/
def branching : MissionFile :=
  ⟨[{ MissionTree.new ['s'] with missions := [Mission.new ['a']] },
    { MissionTree.new ['t'] with missions := [{ Mission.new ['b'] with required := [['a']] }] }]⟩

theorem references_branching :
    (branching.RemovalCleans ['t'] ['b'] ∧ branching.RenamingFollows ['s'] ['a'] ['c']) ↔
      ¬ branching.ListedElsewhere ['t'] ['b'] :=
  references_iff (by decide)

/-- The mission `b` of the other tree still requires `a` when that is gone. -/
theorem not_references_branching : ¬ ∀ file : MissionFile, file.missionIds.Nodup →
    ∀ treeId missionId treeId' oldId newId,
      file.RemovalCleans treeId missionId ∧ file.RenamingFollows treeId' oldId newId := by
  intro h
  have hclean := (h branching (by decide) ['s'] ['a'] ['s'] ['a'] ['c']).1
  refine hclean (by decide) { MissionTree.new ['t'] with
    missions := [{ Mission.new ['b'] with required := [['a']] }] } ?_
    { Mission.new ['b'] with required := [['a']] } List.mem_cons_self List.mem_cons_self
  decide

end MissionFile

end ParadoxCode.Eu4
