import ParadoxCode.Mission.Step

/-!
# Consistent files

What the operations keep: ids that tell trees apart in the file and missions apart in their tree,
and lists of prerequisites without the mission itself and without a duplicate. Renaming a mission
keeps the lists only where its new id is not in the way of the references that it follows.
-/

namespace ParadoxCode.Eu4

open Mission

/-- A mission that does not require itself and requires nothing twice. -/
structure Mission.Sound (mission : Mission) : Prop where
  self : mission.id ∉ mission.required
  nodup : mission.required.Nodup

structure MissionTree.Sound (tree : MissionTree) : Prop where
  ids : (tree.missions.map Mission.id).Nodup
  missions : ∀ mission ∈ tree.missions, mission.Sound

structure Consistent (file : MissionFile) : Prop where
  ids : (file.trees.map MissionTree.id).Nodup
  trees : ∀ tree ∈ file.trees, tree.Sound

theorem Consistent.empty : Consistent .empty := ⟨List.nodup_nil, by rintro _ ⟨⟩⟩

theorem Mission.Sound.new (id : Str) : (Mission.new id).Sound :=
  ⟨List.not_mem_nil, List.nodup_nil⟩

namespace MissionTree

variable {tree : MissionTree} {id : Str}

theorem hasMission_eq_false : tree.hasMission id = false ↔ id ∉ tree.missions.map Mission.id := by
  rw [hasMission, List.any_eq_false, List.mem_map]
  constructor
  · rintro h ⟨mission, hmem, rfl⟩
    exact h mission hmem (beq_self_eq_true _)
  · intro h mission hmem hid
    exact h ⟨mission, hmem, beq_iff_eq.mp hid⟩

theorem Sound.append (h : tree.Sound) {mission : Mission} (hmission : mission.Sound)
    (hid : tree.hasMission mission.id = false) :
    Sound { tree with missions := tree.missions ++ [mission] } where
  ids := by
    rw [List.map_append, List.map_singleton, List.nodup_append_comm, List.singleton_append,
      List.nodup_cons]
    exact ⟨hasMission_eq_false.mp hid, h.ids⟩
  missions := by
    intro other hmem
    rcases List.mem_append.mp hmem with hmem | hmem
    · exact h.missions other hmem
    · rw [List.mem_singleton.mp hmem]
      exact hmission

theorem Sound.sublist (h : tree.Sound) {missions : List Mission}
    (hsub : missions.Sublist tree.missions) : Sound { tree with missions } where
  ids := h.ids.sublist (hsub.map Mission.id)
  missions := fun mission hmem => h.missions mission (hsub.subset hmem)

/-- A change of the missions that keeps their ids. -/
theorem Sound.mapMissions (h : tree.Sound) {f : Mission → Mission} (hid : ∀ m, (f m).id = m.id)
    (hf : ∀ mission ∈ tree.missions, (f mission).Sound) : (tree.mapMissions f).Sound where
  ids := by
    rw [MissionTree.mapMissions, List.map_map]
    exact (List.map_congr_left fun m _ => hid m) ▸ h.ids
  missions := by
    intro mission hmem
    obtain ⟨found, hfound, rfl⟩ := List.mem_map.mp hmem
    exact hf found hfound

/-- A change of one mission that keeps its id. -/
theorem Sound.updateMission (h : tree.Sound) {f : Mission → Mission} (hid : ∀ m, (f m).id = m.id)
    (hf : ∀ mission, tree.findMission id = some mission → (f mission).Sound) :
    (tree.updateMission id f).Sound where
  ids := by
    rw [MissionTree.updateMission, map_updateFirst fun m _ => hid m]
    exact h.ids
  missions := by
    intro mission hmem
    rcases mem_updateFirst hmem with hmem | ⟨found, hfound, rfl⟩
    · exact h.missions mission hmem
    · exact hf found hfound

end MissionTree

theorem Mission.Sound.dropRequired {mission : Mission} (h : mission.Sound) (id : Str) :
    (mission.dropRequired id).Sound where
  self := fun hmem => h.self (List.mem_of_mem_filter hmem)
  nodup := h.nodup.filter _

namespace MissionFile

variable {file : MissionFile} {id treeId : Str}

theorem hasTree_eq_false : file.hasTree id = false ↔ id ∉ file.trees.map MissionTree.id := by
  rw [hasTree, List.any_eq_false, List.mem_map]
  constructor
  · rintro h ⟨tree, hmem, rfl⟩
    exact h tree hmem (beq_self_eq_true _)
  · intro h tree hmem hid
    exact h ⟨tree, hmem, beq_iff_eq.mp hid⟩

end MissionFile

namespace Consistent

variable {file : MissionFile} {treeId missionId : Str}

theorem found (h : Consistent file) {tree : MissionTree}
    (htree : file.findTree treeId = some tree) :
    tree.Sound := h.trees tree (List.mem_of_find?_eq_some htree)

/-- A change of one tree that keeps its id or gives it one of its own. -/
theorem updateTree (h : Consistent file) {tree : MissionTree}
    (htree : file.findTree treeId = some tree) {f : MissionTree → MissionTree}
    (hid : (f tree).id = tree.id ∨ file.hasTree (f tree).id = false) (hf : (f tree).Sound) :
    Consistent (file.updateTree treeId f) where
  ids := by
    obtain ⟨-, before, after, htrees, -, hupdate⟩ := split_of_find? htree
    have hids := h.ids
    rw [htrees, List.map_append, List.map_cons] at hids
    rw [MissionFile.updateTree, hupdate, List.map_append, List.map_cons]
    rcases hid with hid | hid
    · rw [hid]
      exact hids
    · rw [MissionFile.hasTree_eq_false, htrees, List.map_append, List.map_cons] at hid
      rw [List.nodup_middle, List.nodup_cons] at hids ⊢
      refine ⟨fun hmem => hid ?_, hids.2⟩
      rw [List.mem_append] at hmem ⊢
      exact hmem.imp_right (List.mem_cons_of_mem _)
  trees := by
    intro other hmem
    rcases mem_updateFirst hmem with hmem | ⟨found, hfound, rfl⟩
    · exact h.trees other hmem
    · obtain rfl : tree = found := Option.some.inj (htree.symm.trans hfound)
      exact hf

/-- A change of one mission that keeps its id. -/
theorem updateMission (h : Consistent file) {tree : MissionTree}
    (htree : file.findTree treeId = some tree) {f : Mission → Mission} (hid : ∀ m, (f m).id = m.id)
    (hf : ∀ mission, tree.findMission missionId = some mission → (f mission).Sound) :
    Consistent (file.updateMission treeId missionId f) :=
  h.updateTree htree (Or.inl rfl) ((h.found htree).updateMission hid hf)

/-- A change of one tree that keeps its id and its missions. -/
theorem onTree (h : Consistent file) {f : MissionTree → MissionTree} {changed : MissionFile}
    (hok : file.onTree treeId f = (.ok (), changed)) (hid : ∀ tree, (f tree).id = tree.id)
    (hf : ∀ tree, (f tree).missions = tree.missions) : Consistent changed := by
  obtain ⟨tree, htree, rfl⟩ := MissionFile.onTree_ok hok
  have hsound := h.found htree
  refine h.updateTree htree (Or.inl (hid tree)) ⟨?_, ?_⟩ <;> rw [hf tree]
  · exact hsound.ids
  · exact hsound.missions

/-- A change of one mission that keeps its id and its prerequisites. -/
theorem onMission (h : Consistent file) {f : Mission → Mission} {changed : MissionFile}
    (hok : file.onMission treeId missionId f = (.ok (), changed)) (hid : ∀ m, (f m).id = m.id)
    (hf : ∀ m, (f m).required = m.required) : Consistent changed := by
  obtain ⟨tree, htree, mission, hmission, rfl⟩ := MissionFile.onMission_ok hok
  refine h.updateMission htree hid fun found hfound => ?_
  have hsound := (h.found htree).missions found (List.mem_of_find?_eq_some hfound)
  constructor <;> rw [hf found]
  · rw [hid found]
    exact hsound.self
  · exact hsound.nodup

end Consistent

/-! ## Prerequisites without duplicates -/

theorem mem_keepFirst {seen required : List Str} {id : Str}
    (h : id ∈ MissionFile.keepFirst seen required) : id ∈ required ∧ id ∉ seen := by
  induction required generalizing seen with
  | nil => cases h
  | cons head rest ih =>
    rw [MissionFile.keepFirst] at h
    split_ifs at h with hseen
    · obtain ⟨hmem, hnot⟩ := ih h
      exact ⟨List.mem_cons_of_mem _ hmem, hnot⟩
    · rcases List.mem_cons.mp h with rfl | h
      · exact ⟨List.mem_cons_self, hseen⟩
      · obtain ⟨hmem, hnot⟩ := ih h
        exact ⟨List.mem_cons_of_mem _ hmem, fun h => hnot (List.mem_cons_of_mem _ h)⟩

theorem nodup_keepFirst (seen required : List Str) :
    (MissionFile.keepFirst seen required).Nodup := by
  induction required generalizing seen with
  | nil => exact List.nodup_nil
  | cons head rest ih =>
    rw [MissionFile.keepFirst]
    split_ifs with hseen
    · exact ih seen
    · exact List.nodup_cons.mpr ⟨fun h => (mem_keepFirst h).2 List.mem_cons_self, ih _⟩

/-! ## Renaming -/

section

variable {oldId newId : Str} {required : List Str}

theorem mem_map_renamed (hne : newId ≠ oldId) {id : Str} :
    id ∈ required.map (renamed oldId newId) ↔
      (id ∈ required ∧ id ≠ oldId) ∨ (id = newId ∧ oldId ∈ required) := by
  rw [List.mem_map]
  constructor
  · rintro ⟨found, hmem, rfl⟩
    unfold renamed
    split_ifs with h
    · exact Or.inr ⟨rfl, h ▸ hmem⟩
    · exact Or.inl ⟨hmem, h⟩
  · rintro (⟨hmem, h⟩ | ⟨rfl, hmem⟩)
    · exact ⟨id, hmem, if_neg h⟩
    · exact ⟨oldId, hmem, if_pos rfl⟩

/-- A renaming makes a duplicate of the old and the new id, and no other. -/
theorem nodup_map_renamed_iff (hne : newId ≠ oldId) (h : required.Nodup) :
    (required.map (renamed oldId newId)).Nodup ↔ ¬ (oldId ∈ required ∧ newId ∈ required) := by
  constructor
  · rintro hnodup ⟨hold, hnew⟩
    refine hne (List.inj_on_of_nodup_map hnodup hnew hold ?_)
    rw [renamed, renamed, if_neg hne, if_pos rfl]
  · intro hnot
    refine List.Nodup.map_on (fun x hx y hy hxy => ?_) h
    unfold renamed at hxy
    split_ifs at hxy with hx' hy' hy'
    · rw [hx', hy']
    · exact absurd ⟨hx' ▸ hx, hxy ▸ hy⟩ hnot
    · exact absurd ⟨hy' ▸ hy, hxy ▸ hx⟩ hnot
    · exact hxy

/-- A mission under its own id, in a file where another one is renamed. -/
theorem Mission.Sound.renameRequired_iff {mission : Mission} (h : mission.Sound)
    (hne : newId ≠ oldId) : (mission.renameRequired oldId newId).Sound ↔
      (mission.id = newId → oldId ∉ mission.required) ∧
        ¬ (oldId ∈ mission.required ∧ newId ∈ mission.required) := by
  have hself : mission.id ∈ mission.required.map (renamed oldId newId) ↔
      mission.id = newId ∧ oldId ∈ mission.required := by
    rw [mem_map_renamed hne]
    exact or_iff_right fun hmem => h.self hmem.1
  constructor
  · rintro ⟨hid, hnodup⟩
    exact ⟨fun heq hmem => hid (hself.mpr ⟨heq, hmem⟩),
      (nodup_map_renamed_iff hne h.nodup).mp hnodup⟩
  · rintro ⟨hid, hnot⟩
    exact ⟨fun hmem => hid (hself.mp hmem).1 (hself.mp hmem).2,
      (nodup_map_renamed_iff hne h.nodup).mpr hnot⟩

/-- The renamed mission. -/
theorem Mission.Sound.rename_iff {mission : Mission} (h : mission.Sound) (hne : newId ≠ oldId)
    (hid : mission.id = oldId) :
    (Mission.renameRequired oldId newId { mission with id := newId }).Sound ↔
      newId ∉ mission.required := by
  have hold : oldId ∉ mission.required := hid ▸ h.self
  have hself : newId ∈ mission.required.map (renamed oldId newId) ↔ newId ∈ mission.required := by
    rw [mem_map_renamed hne]
    constructor
    · rintro (⟨hmem, -⟩ | ⟨-, hmem⟩)
      · exact hmem
      · exact absurd hmem hold
    · exact fun hmem => Or.inl ⟨hmem, hne⟩
  constructor
  · exact fun hsound hmem => hsound.self (hself.mpr hmem)
  · intro hnot
    exact ⟨fun hmem => hnot (hself.mp hmem),
      (nodup_map_renamed_iff hne h.nodup).mpr fun hmem => hold hmem.1⟩

end

namespace MissionFile

variable {file changed : MissionFile} {treeId oldId newId : Str}

theorem consistent_iff : Consistent file ↔ (file.trees.map MissionTree.id).Nodup ∧
    (∀ tree ∈ file.trees, (tree.missions.map Mission.id).Nodup) ∧
      ∀ mission ∈ file.missions, mission.Sound := by
  constructor
  · intro h
    refine ⟨h.ids, fun tree hmem => (h.trees tree hmem).ids, fun mission hmission => ?_⟩
    obtain ⟨tree, htree, hmem⟩ := List.mem_flatMap.mp hmission
    exact (h.trees tree htree).missions mission hmem
  · rintro ⟨hids, htrees, hmissions⟩
    refine ⟨hids, fun tree htree => ⟨htrees tree htree, fun mission hmem => ?_⟩⟩
    exact hmissions mission (List.mem_flatMap.mpr ⟨tree, htree, hmem⟩)

/-- The new id is not in the way of the references that a renaming follows: the mission does not
require it, a mission of that id does not require the old one, and no mission requires both. -/
def RenamesFreely (file : MissionFile) (treeId oldId newId : Str) : Prop :=
  ∀ tree, file.findTree treeId = some tree → ∀ mission, tree.findMission oldId = some mission →
    newId ∉ mission.required ∧ ∀ other ∈ file.missions,
      (other.id = newId → oldId ∉ other.required) ∧
        ¬ (oldId ∈ other.required ∧ newId ∈ other.required)

/-- The ids behind a renaming. -/
theorem ids_renameMission (h : Consistent file)
    (hok : (file.renameMission treeId oldId newId).1 = .ok ()) :
    ((file.renameMission treeId oldId newId).2.trees.map MissionTree.id).Nodup ∧
      ∀ tree ∈ (file.renameMission treeId oldId newId).2.trees,
        (tree.missions.map Mission.id).Nodup := by
  obtain ⟨tree, htree, hhas, ⟨mission, hmission⟩, heq⟩ := renameMission_ok hok
  rw [heq, List.map_map]
  constructor
  · have : (file.updateMission treeId oldId fun mission => { mission with id := newId }).trees.map
        MissionTree.id = file.trees.map MissionTree.id := map_updateFirst fun _ _ => rfl
    exact this ▸ h.ids
  · intro other hmem
    obtain ⟨found, hfound, rfl⟩ := List.mem_map.mp hmem
    rw [MissionTree.mapMissions, List.map_map]
    change (found.missions.map Mission.id).Nodup
    rcases mem_updateFirst hfound with hfound | ⟨found', hfound', rfl⟩
    · exact (h.trees found hfound).ids
    · obtain rfl : tree = found' := Option.some.inj (htree.symm.trans hfound')
      obtain ⟨-, before, after, hmissions, -, hupdate⟩ := split_of_find? hmission
      have hids := (h.found htree).ids
      rw [MissionTree.hasMission_eq_false, hmissions] at hhas
      rw [MissionTree.updateMission, hupdate]
      rw [hmissions] at hids
      rw [List.map_append, List.map_cons] at hhas hids ⊢
      rw [List.nodup_middle, List.nodup_cons] at hids ⊢
      refine ⟨fun hmem => hhas ?_, hids.2⟩
      rw [List.mem_append] at hmem ⊢
      exact hmem.imp_right (List.mem_cons_of_mem _)

/-- A renaming of a consistent file keeps it consistent where it is free, and only there. -/
theorem consistent_renameMission_iff (h : Consistent file)
    (hok : (file.renameMission treeId oldId newId).1 = .ok ()) :
    Consistent (file.renameMission treeId oldId newId).2 ↔
      file.RenamesFreely treeId oldId newId := by
  obtain ⟨tree, htree, hhas, ⟨mission, hmission⟩, heq⟩ := renameMission_ok hok
  obtain ⟨before, after, hmissions, hupdate⟩ := missions_updateMission htree hmission
  have hid : mission.id = oldId := findMission_id hmission
  have hne : newId ≠ oldId := by
    rintro rfl
    have := MissionTree.hasMission_eq_false.mp hhas
    exact this (hid ▸ List.mem_map_of_mem (List.mem_of_find?_eq_some hmission))
  have hsound : ∀ mission ∈ file.missions, mission.Sound := (consistent_iff.mp h).2.2
  obtain ⟨hids, hids'⟩ := ids_renameMission h hok
  rw [consistent_iff, and_iff_right hids, and_iff_right hids', heq, missions_map, hupdate]
  rw [hmissions] at hsound
  have hself := hsound mission (List.mem_append_right _ List.mem_cons_self)
  have hrename := hself.rename_iff hne hid
  have hother : ∀ other ∈ before ++ mission :: after,
      (other.renameRequired oldId newId).Sound ↔ (other.id = newId → oldId ∉ other.required) ∧
        ¬ (oldId ∈ other.required ∧ newId ∈ other.required) :=
    fun other hmem => (hsound other hmem).renameRequired_iff hne
  constructor
  · intro hall tree' htree' mission' hmission'
    obtain rfl : tree = tree' := Option.some.inj (htree.symm.trans htree')
    obtain rfl : mission = mission' := Option.some.inj (hmission.symm.trans hmission')
    have hmem : ∀ other ∈ before ++ { mission with id := newId } :: after,
        (other.renameRequired oldId newId).Sound :=
      fun other hmem => hall _ (List.mem_map_of_mem hmem)
    refine ⟨hrename.mp (hmem _ (List.mem_append_right _ List.mem_cons_self)), fun other ho => ?_⟩
    rw [hmissions] at ho
    rcases List.mem_append.mp ho with hb | hb
    · exact (hother other ho).mp (hmem other (List.mem_append_left _ hb))
    · rcases List.mem_cons.mp hb with rfl | ha
      · have hold : oldId ∉ other.required := hid ▸ hself.self
        exact ⟨fun _ => hold, fun hboth => hold hboth.1⟩
      · exact (hother other ho).mp
          (hmem other (List.mem_append_right _ (List.mem_cons_of_mem _ ha)))
  · intro hfree renamed' hmem
    obtain ⟨other, ho, rfl⟩ := List.mem_map.mp hmem
    obtain ⟨hnew, hrest⟩ := hfree tree htree mission hmission
    rw [hmissions] at hrest
    have hold (hmem : other ∈ before ++ mission :: after) :
        (other.renameRequired oldId newId).Sound := (hother other hmem).mpr (hrest other hmem)
    rcases List.mem_append.mp ho with hb | hb
    · exact hold (List.mem_append_left _ hb)
    · rcases List.mem_cons.mp hb with rfl | ha
      · exact hrename.mpr hnew
      · exact hold (List.mem_append_right _ (List.mem_cons_of_mem _ ha))

end MissionFile

/-! ## Runs of edits -/

/-- The condition on an edit that keeps a file consistent. -/
def Edit.Keeps (file : MissionFile) : Edit → Prop
  | .renameMission treeId oldId newId => file.RenamesFreely treeId oldId newId
  | _ => True

/-- One step: a successful edit of a consistent file. -/
theorem Edit.consistent_step_iff {file changed : MissionFile} {edit : Edit} (h : Consistent file)
    (hstep : edit.step file = some changed) : Consistent changed ↔ edit.Keeps file := by
  have hok := Edit.step_eq_some_iff.mp hstep
  cases edit with
  | renameMission treeId oldId newId =>
    have hfst := congrArg Prod.fst hok
    have hsnd : (file.renameMission treeId oldId newId).2 = changed := congrArg Prod.snd hok
    exact hsnd ▸ MissionFile.consistent_renameMission_iff h hfst
  | addTree id =>
    refine iff_of_true ?_ trivial
    obtain ⟨hhas, rfl⟩ := MissionFile.addTree_ok hok
    constructor
    · rw [List.map_append, List.map_singleton, List.nodup_append_comm, List.singleton_append,
        List.nodup_cons]
      exact ⟨MissionFile.hasTree_eq_false.mp hhas, h.ids⟩
    · intro tree hmem
      rcases List.mem_append.mp hmem with hmem | hmem
      · exact h.trees tree hmem
      · rw [List.mem_singleton.mp hmem]
        exact ⟨List.nodup_nil, by rintro _ ⟨⟩⟩
  | removeTree treeId =>
    refine iff_of_true ?_ trivial
    rw [MissionFile.removeTree_ok hok]
    exact ⟨h.ids.sublist (List.filter_sublist.map _),
      fun tree hmem => h.trees tree (List.mem_of_mem_filter hmem)⟩
  | renameTree oldId newId =>
    refine iff_of_true ?_ trivial
    obtain ⟨hhas, ⟨tree, htree⟩, rfl⟩ := MissionFile.renameTree_ok hok
    exact h.updateTree htree (Or.inr hhas) ⟨(h.found htree).ids, (h.found htree).missions⟩
  | addMission treeId id =>
    refine iff_of_true ?_ trivial
    obtain ⟨tree, htree, hhas, rfl⟩ := MissionFile.addMission_ok hok
    exact h.updateTree htree (Or.inl rfl) ((h.found htree).append (.new id) hhas)
  | removeMission treeId missionId =>
    refine iff_of_true ?_ trivial
    obtain ⟨tree, htree, rfl⟩ := MissionFile.removeMission_ok hok
    refine h.updateTree htree (Or.inl rfl) ?_
    have hsound := (h.found htree).sublist
      (List.filter_sublist (p := fun mission => mission.id != missionId))
    exact hsound.mapMissions (fun _ => rfl) fun mission hmem =>
      (hsound.missions mission hmem).dropRequired missionId
  | addRequired treeId missionId requiredId =>
    refine iff_of_true ?_ trivial
    obtain ⟨hne, tree, htree, mission, hmission, hcase⟩ := MissionFile.addRequired_ok hok
    rcases hcase with ⟨-, rfl⟩ | ⟨hnot, rfl⟩
    · exact h
    · refine h.updateMission htree (fun _ => rfl) fun found hfound => ?_
      obtain rfl : mission = found := Option.some.inj (hmission.symm.trans hfound)
      have hsound := (h.found htree).missions mission (List.mem_of_find?_eq_some hmission)
      have hid := MissionFile.findMission_id hmission
      constructor
      · intro hmem
        rcases List.mem_append.mp hmem with hmem | hmem
        · exact hsound.self hmem
        · exact hne (hid ▸ (List.mem_singleton.mp hmem).symm)
      · rw [List.nodup_append_comm, List.singleton_append, List.nodup_cons]
        exact ⟨hnot, hsound.nodup⟩
  | removeRequired treeId missionId requiredId =>
    refine iff_of_true ?_ trivial
    obtain ⟨tree, htree, mission, hmission, rfl⟩ := MissionFile.onMission_ok hok
    refine h.updateMission htree (fun _ => rfl) fun found hfound => ?_
    have hsound := (h.found htree).missions found (List.mem_of_find?_eq_some hfound)
    exact hsound.dropRequired requiredId
  | setRequired treeId missionId required =>
    refine iff_of_true ?_ trivial
    obtain ⟨hself, tree, htree, mission, hmission, rfl⟩ := MissionFile.setRequired_ok hok
    refine h.updateMission htree (fun _ => rfl) fun found hfound => ⟨fun hmem => hself ?_, ?_⟩
    · exact MissionFile.findMission_id hfound ▸ (mem_keepFirst hmem).1
    · exact nodup_keepFirst [] required
  | moveMission treeId missionId targetTreeId =>
    refine iff_of_true ?_ trivial
    rcases MissionFile.moveMission_ok hok with rfl | ⟨hne, tree, htree, mission, hmission, target,
      htarget, hhas, rfl⟩
    · exact h
    · have htake : Consistent (file.updateTree treeId fun tree => tree.takeMission missionId) :=
        h.updateTree htree (Or.inl rfl) ((h.found htree).sublist List.eraseP_sublist)
      have htarget' := (MissionFile.findTree_updateTree_of_ne
        (f := fun tree => tree.takeMission missionId) hne fun _ => rfl).trans htarget
      refine htake.updateTree htarget' (Or.inl rfl) ((htake.found htarget').append ?_ ?_)
      · exact (h.found htree).missions mission (List.mem_of_find?_eq_some hmission)
      · rw [MissionFile.findMission_id hmission]
        exact hhas
  | setMissionPosition treeId missionId position =>
    exact iff_of_true (h.onMission hok (fun _ => rfl) fun _ => rfl) trivial
  | setMissionIcon treeId missionId icon =>
    exact iff_of_true (h.onMission hok (fun _ => rfl) fun _ => rfl) trivial
  | setMissionCompletedBy treeId missionId completedBy =>
    exact iff_of_true (h.onMission hok (fun _ => rfl) fun _ => rfl) trivial
  | setMissionBlock treeId missionId field text =>
    exact iff_of_true (h.onMission hok (by cases field <;> exact fun _ => rfl)
      (by cases field <;> exact fun _ => rfl)) trivial
  | setTreeBlock treeId field text =>
    exact iff_of_true (h.onTree hok (by cases field <;> exact fun _ => rfl)
      (by cases field <;> exact fun _ => rfl)) trivial
  | setTreeSlot treeId slot =>
    exact iff_of_true (h.onTree hok (fun _ => rfl) fun _ => rfl) trivial
  | setTreeGeneric treeId generic =>
    exact iff_of_true (h.onTree hok (fun _ => rfl) fun _ => rfl) trivial
  | setTreeAi treeId ai =>
    exact iff_of_true (h.onTree hok (fun _ => rfl) fun _ => rfl) trivial
  | setTreeCountryShield treeId shield =>
    exact iff_of_true (h.onTree hok (fun _ => rfl) fun _ => rfl) trivial

/-- A run of successful edits from the empty file passes consistent files only, exactly if each of
its renamings is free. -/
theorem consistent_run_iff (edits : List Edit) :
    Trace.Always Edit.step Consistent edits .empty ↔
      Trace.Allowed Edit.step Edit.Keeps edits .empty := by
  refine Trace.always_iff_allowed ?_ (fun _ h => h) ?_ Consistent.empty edits
  · intro file edit changed h hkeeps hstep
    exact (Edit.consistent_step_iff h hstep).mpr hkeeps
  · intro file edit changed h hstep hchanged
    exact (Edit.consistent_step_iff h hstep).mp hchanged

/-- The mission `x` requires `y`, which is not there yet, and is renamed to `y`. -/
def selfRequiring : List Edit :=
  [.addTree ['t'], .addMission ['t'] ['x'], .addRequired ['t'] ['x'] ['y'],
    .renameMission ['t'] ['x'] ['y']]

theorem not_consistent_run : ¬ ∀ edits file,
    Trace.run Edit.step edits MissionFile.empty = some file →
      Consistent file := by
  intro h
  have hrun : Trace.run Edit.step selfRequiring MissionFile.empty =
      some ⟨[{ MissionTree.new ['t'] with
        missions := [{ Mission.new ['y'] with required := [['y']] }] }]⟩ := by decide
  have hsound := (h _ _ hrun).trees _ List.mem_cons_self
  exact (hsound.missions _ List.mem_cons_self).self List.mem_cons_self

end ParadoxCode.Eu4
