import ParadoxCode.Mission.Consistent
import ParadoxCode.Mission.Load
import ParadoxCode.Mission.Validate

/-!
# Ranges of prerequisites

A loaded mission has the ranges of its prerequisites beside them. No operation changes the ranges,
so they stay parallel as long as no prerequisite comes or goes: a renaming keeps them, in the name
that the token stands for by then.
-/

namespace ParadoxCode.Eu4

open ParadoxCode.Parser Mission

/-- The scalar in a range of the source. -/
def tokenText (source : List Char) (range : TextRange) : Str :=
  unquote (trim ((getText source range.start range.stop).getD []))

/-- What an id is called after some renamings. -/
def currentName (renames : List (Str × Str)) (id : Str) : Str :=
  renames.foldl (fun id rename => renamed rename.1 rename.2 id) id

theorem currentName_append (renames : List (Str × Str)) (oldId newId id : Str) :
    currentName (renames ++ [(oldId, newId)]) id = renamed oldId newId
      (currentName renames id) := by
  unfold currentName
  rw [List.foldl_append]
  rfl

/-- The prerequisites are the tokens of their ranges, in the current names. -/
structure Mission.Tracked (source : List Char) (renames : List (Str × Str)) (mission : Mission) :
    Prop where
  required : mission.required =
    mission.requiredRanges.map fun range => currentName renames (tokenText source range)
  nonempty : ∀ range ∈ mission.requiredRanges, range.start < range.stop

theorem Mission.Tracked.new (source : List Char) (renames : List (Str × Str)) (id : Str) :
    (Mission.new id).Tracked source renames := ⟨rfl, by rintro _ ⟨⟩⟩

/-- The prerequisites and their ranges are all that counts. -/
theorem Mission.Tracked.congr {source : List Char} {renames : List (Str × Str)}
    {mission mission' : Mission} (h : mission.Tracked source renames)
    (hrequired : mission'.required = mission.required)
    (hranges : mission'.requiredRanges = mission.requiredRanges) :
    mission'.Tracked source renames :=
  ⟨by rw [hrequired, hranges]; exact h.required, by rw [hranges]; exact h.nonempty⟩

/-! ## Loading -/

section

variable {parsed : ParsedFile} {spec : ViewSpec}

/-- The entries of a block are scalars at ranges that are not empty. -/
theorem mem_blockScalars {block : CstNode} {entry : Str × TextRange}
    (h : entry ∈ blockScalars parsed block) :
    entry.1 = tokenText parsed.source entry.2 ∧ entry.2.start < entry.2.stop := by
  obtain ⟨hmem, hempty⟩ := List.mem_filter.mp h
  obtain ⟨child, -, rfl⟩ := List.mem_map.mp hmem
  refine ⟨rfl, Nat.lt_of_le_of_ne child.range.le fun heq => ?_⟩
  have hnil : scalar parsed child = [] := by
    unfold scalar valueText ParsedFile.text
    rw [← heq]
    unfold getText sliceBytes
    rw [Nat.sub_self, List.take_zero]
    split_ifs <;> rfl
  rw [hnil] at hempty
  cases hempty

theorem tracked_missionField {state : Mission × List Str} (h : state.1.Tracked parsed.source [])
    (prop : CstNode) : (missionField parsed spec state prop).1.Tracked parsed.source [] := by
  have hite {c : Prop} [Decidable c] {x y : Mission × List Str}
      (hx : x.1.Tracked parsed.source []) (hy : y.1.Tracked parsed.source []) :
      (if c then x else y).1.Tracked parsed.source [] := by
    split_ifs
    · exact hx
    · exact hy
  unfold missionField
  split
  · exact h
  · refine hite (h.congr rfl rfl) (hite (h.congr rfl rfl) (hite (h.congr rfl rfl) (hite ?_
      (hite ?_ (hite (h.congr rfl rfl) (hite (h.congr rfl rfl) (hite (h.congr rfl rfl)
        (hite (h.congr rfl rfl) (h.congr rfl rfl)))))))))
    · -- the prerequisites come with the ranges they were read at
      split
      · constructor
        · dsimp only
          rw [List.map_append, h.required]
          congr 1
          rw [List.map_map]
          exact List.map_congr_left fun entry hmem => (mem_blockScalars hmem).1
        · intro range hmem
          rcases List.mem_append.mp hmem with hmem | hmem
          · exact h.nonempty range hmem
          · obtain ⟨entry, hentry, rfl⟩ := List.mem_map.mp hmem
            exact (mem_blockScalars hentry).2
      · exact h.congr rfl rfl
    · split
      · exact h.congr rfl rfl
      · exact h.congr rfl rfl

theorem tracked_parseMission (key value : CstNode) (span : TextRange) (warnings : List Str) :
    (parseMission parsed spec key value span warnings).1.Tracked parsed.source [] := by
  refine List.foldlRecOn (motive := fun (state : Mission × List Str) =>
    state.1.Tracked parsed.source [])
    _ _ ?_ fun state h prop _ => tracked_missionField h prop
  exact ⟨rfl, by rintro _ ⟨⟩⟩

/-- Every mission of the tree is tracked. -/
def MissionTree.Tracked (source : List Char) (renames : List (Str × Str)) (tree : MissionTree) :
    Prop := ∀ mission ∈ tree.missions, mission.Tracked source renames

theorem tracked_treeField {state : MissionTree × List Str} (h : state.1.Tracked parsed.source [])
    (prop : CstNode) : (treeField parsed spec state prop).1.Tracked parsed.source [] := by
  have hite {c : Prop} [Decidable c] {x y : MissionTree × List Str}
      (hx : x.1.Tracked parsed.source []) (hy : y.1.Tracked parsed.source []) :
      (if c then x else y).1.Tracked parsed.source [] := by
    split_ifs
    · exact hx
    · exact hy
  unfold treeField
  split
  · exact h
  · refine hite ?_ (hite ?_ (hite ?_ (hite ?_ (hite h (hite h (hite h ?_))))))
    · split <;> exact h
    · split <;> exact h
    · split <;> exact h
    · split <;> exact h
    · split
      · intro mission hmem
        rcases List.mem_append.mp hmem with hmem | hmem
        · exact h mission hmem
        · rw [List.mem_singleton.mp hmem]
          exact tracked_parseMission _ _ _ _
      · exact h

theorem tracked_parseTree (key value : CstNode) (span : TextRange) (warnings : List Str) :
    (parseTree parsed spec key value span warnings).1.Tracked parsed.source [] := by
  refine List.foldlRecOn (motive := fun (state : MissionTree × List Str) =>
    state.1.Tracked parsed.source []) _ _ ?_ fun state h prop _ => tracked_treeField h prop
  rintro _ ⟨⟩

theorem tracked_documentNode {state : List MissionTree × List Str}
    (h : ∀ tree ∈ state.1, tree.Tracked parsed.source []) (node : CstNode) :
    ∀ tree ∈ (documentNode parsed spec state node).1, tree.Tracked parsed.source [] := by
  unfold documentNode
  split_ifs
  · split
    · exact h
    · split
      · exact h
      · intro tree hmem
        rcases List.mem_append.mp hmem with hmem | hmem
        · exact h tree hmem
        · rw [List.mem_singleton.mp hmem]
          exact tracked_parseTree _ _ _ _
  · exact h

theorem tracked_extractTrees (root : CstNode) :
    ∀ tree ∈ (extractTrees parsed spec root).1, tree.Tracked parsed.source [] := by
  refine List.foldlRecOn (motive := fun (state : List MissionTree × List Str) =>
    ∀ tree ∈ state.1, tree.Tracked parsed.source []) _ _ ?_ fun state h node _ =>
      tracked_documentNode h node
  rintro _ ⟨⟩

/-- Every mission of a loaded file is tracked. -/
theorem tracked_parseFile {source : List Char} {loaded : LoadedFile}
    (h : parseFile source = some loaded) :
    ∀ mission ∈ loaded.file.missions, mission.Tracked source [] := by
  obtain ⟨parsed, hparse, h⟩ := Option.bind_eq_some_iff.mp h
  obtain ⟨root, -, rfl⟩ := Option.map_eq_some_iff.mp h
  obtain ⟨parts, -, rfl⟩ := Option.map_eq_some_iff.mp hparse
  intro mission hmem
  obtain ⟨tree, htree, hmission⟩ := List.mem_flatMap.mp hmem
  exact tracked_extractTrees root tree htree mission hmission

end

/-! ## Runs of edits -/

/-- A file under edit, with the renamings so far. -/
structure Session where
  file : MissionFile
  renames : List (Str × Str)

/-- The renaming of missions that an edit makes. -/
def Edit.renames : Edit → List (Str × Str)
  | .renameMission _ oldId newId => [(oldId, newId)]
  | _ => []

def Session.step (session : Session) (edit : Edit) : Option Session :=
  (edit.step session.file).map fun changed => ⟨changed, session.renames ++ edit.renames⟩

/-- The condition on an edit that keeps the ranges parallel: no prerequisite of a mission that stays
comes or goes. -/
def Edit.LeavesRequired (file : MissionFile) : Edit → Prop
  | .addRequired treeId missionId requiredId => ∀ tree, file.findTree treeId = some tree →
      ∀ mission, tree.findMission missionId = some mission → requiredId ∈ mission.required
  | .removeRequired treeId missionId requiredId => ∀ tree, file.findTree treeId = some tree →
      ∀ mission, tree.findMission missionId = some mission → requiredId ∉ mission.required
  | .setRequired treeId missionId required => ∀ tree, file.findTree treeId = some tree →
      ∀ mission, tree.findMission missionId = some mission →
        MissionFile.keepFirst [] required = mission.required
  | .removeMission treeId missionId => ∀ tree, file.findTree treeId = some tree →
      ∀ mission ∈ tree.missions, mission.id ≠ missionId → missionId ∉ mission.required
  | _ => True

/-- The ranges are parallel to the prerequisites, each is the range of the prerequisite's own token,
and the diagnostics point at the token that they name. -/
structure Parallel (source : List Char) (session : Session) : Prop where
  length : ∀ mission ∈ session.file.missions,
    mission.requiredRanges.length = mission.required.length
  token : ∀ mission ∈ session.file.missions, ∀ (index : Nat) (required : Str) (range : TextRange),
    mission.required[index]? = some required → mission.requiredRanges[index]? = some range →
      range.start < range.stop → required = currentName session.renames (tokenText source range)
  diagnostics : ∀ (universeIds : List Str),
    ∀ diagnostic ∈ session.file.requiredDiagnostics universeIds,
      ∃ mission index required, Reports session.file diagnostic mission index required ∧
        required = currentName session.renames (tokenText source diagnostic.range)

/-- Every mission is tracked. -/
def Session.Tracked (source : List Char) (session : Session) : Prop :=
  ∀ mission ∈ session.file.missions, mission.Tracked source session.renames

theorem Session.Tracked.parallel {source : List Char} {session : Session}
    (h : session.Tracked source) : Parallel source session where
  length := by
    intro mission hmem
    rw [(h mission hmem).required, List.length_map]
  token := by
    intro mission hmem index required range hrequired hrange _
    rw [(h mission hmem).required, List.getElem?_map, hrange] at hrequired
    exact (Option.some.inj hrequired).symm
  diagnostics := by
    intro universeIds diagnostic hdiagnostic
    obtain ⟨mission, index, required, hreports⟩ :=
      MissionFile.reports_of_requiredDiagnostics hdiagnostic
    refine ⟨mission, index, required, hreports, ?_⟩
    have hlisted := hreports.listed
    rw [(h mission hreports.mem).required, List.getElem?_map, Option.map_eq_some_iff] at hlisted
    obtain ⟨range, hrange, rfl⟩ := hlisted
    rw [hreports.range, Mission.requiredRange, hrange, Option.getD_some]

/-- Parallel ranges that are not empty leave one list of prerequisites. -/
theorem Parallel.required {source : List Char} {session : Session} (h : Parallel source session)
    {mission : Mission} (hmem : mission ∈ session.file.missions)
    (hnonempty : ∀ range ∈ mission.requiredRanges, range.start < range.stop) :
    mission.required = mission.requiredRanges.map fun range =>
      currentName session.renames (tokenText source range) := by
  refine List.ext_getElem? fun index => ?_
  rw [List.getElem?_map]
  cases hrange : mission.requiredRanges[index]? with
  | none =>
    rw [List.getElem?_eq_none_iff, h.length mission hmem] at hrange
    rw [List.getElem?_eq_none_iff.mpr hrange]
    rfl
  | some range =>
    obtain ⟨hlt, -⟩ := List.getElem?_eq_some_iff.mp hrange
    rw [h.length mission hmem] at hlt
    obtain ⟨required, hrequired⟩ : ∃ required, mission.required[index]? = some required :=
      ⟨_, List.getElem?_eq_getElem hlt⟩
    rw [hrequired, h.token mission hmem index required range hrequired hrange
      (hnonempty range (List.mem_of_getElem? hrange))]
    rfl

namespace MissionFile

variable {source : List Char} {renames : List (Str × Str)} {file changed : MissionFile}
  {treeId missionId : Str}

theorem tracked_updateTree (h : ∀ mission ∈ file.missions, mission.Tracked source renames)
    {f : MissionTree → MissionTree}
    (hf : ∀ tree, file.findTree treeId = some tree → tree.Tracked source renames →
      (f tree).Tracked source renames) :
    ∀ mission ∈ (file.updateTree treeId f).missions, mission.Tracked source renames := by
  intro mission hmem
  obtain ⟨tree, htree, hmission⟩ := List.mem_flatMap.mp hmem
  have htrees : ∀ tree ∈ file.trees, tree.Tracked source renames :=
    fun tree htree mission hmission =>
    h mission (List.mem_flatMap.mpr ⟨tree, htree, hmission⟩)
  rcases mem_updateFirst htree with htree | ⟨found, hfound, rfl⟩
  · exact htrees tree htree mission hmission
  · exact hf found hfound (htrees found (List.mem_of_find?_eq_some hfound)) mission hmission

theorem tracked_updateMission (h : ∀ mission ∈ file.missions, mission.Tracked source renames)
    {f : Mission → Mission} (hf : ∀ tree, file.findTree treeId = some tree → ∀ mission,
      tree.findMission missionId = some mission → (f mission).required = mission.required ∧
        (f mission).requiredRanges = mission.requiredRanges) :
    ∀ mission ∈ (file.updateMission treeId missionId f).missions,
      mission.Tracked source renames := by
  refine tracked_updateTree h fun tree htree htracked mission hmission => ?_
  rcases mem_updateFirst hmission with hmission | ⟨found, hfound, rfl⟩
  · exact htracked mission hmission
  · have hold := htracked found (List.mem_of_find?_eq_some hfound)
    obtain ⟨h₁, h₂⟩ := hf tree htree found hfound
    exact hold.congr h₁ h₂

/-- Setters of a mission leave its prerequisites alone. -/
theorem tracked_onMission (h : ∀ mission ∈ file.missions, mission.Tracked source renames)
    {f : Mission → Mission} (hok : file.onMission treeId missionId f = (.ok (), changed))
    (hf : ∀ mission, (f mission).required = mission.required ∧
      (f mission).requiredRanges = mission.requiredRanges) :
    ∀ mission ∈ changed.missions, mission.Tracked source renames := by
  obtain ⟨-, -, -, -, rfl⟩ := onMission_ok hok
  exact tracked_updateMission h fun _ _ mission _ => hf mission

/-- Setters of a tree leave its missions alone. -/
theorem tracked_onTree (h : ∀ mission ∈ file.missions, mission.Tracked source renames)
    {f : MissionTree → MissionTree} (hok : file.onTree treeId f = (.ok (), changed))
    (hf : ∀ tree, (f tree).missions = tree.missions) :
    ∀ mission ∈ changed.missions, mission.Tracked source renames := by
  obtain ⟨-, -, rfl⟩ := onTree_ok hok
  refine tracked_updateTree h fun tree _ htracked mission hmission => ?_
  rw [hf tree] at hmission
  exact htracked mission hmission

theorem tracked_moveMission {targetTreeId : Str}
    (h : ∀ mission ∈ file.missions, mission.Tracked source renames)
    (hok : file.moveMission treeId missionId targetTreeId = (.ok (), changed)) :
    ∀ mission ∈ changed.missions, mission.Tracked source renames := by
  rcases moveMission_ok hok with rfl | ⟨-, tree, htree, mission, hmission, -, -, -, rfl⟩
  · exact h
  · refine tracked_updateTree (tracked_updateTree h ?_) ?_
    · intro tree _ htracked other hother
      exact htracked other (List.mem_of_mem_eraseP hother)
    · intro target _ htracked other hother
      rcases List.mem_append.mp hother with hother | hother
      · exact htracked other hother
      · rw [List.mem_singleton.mp hother]
        exact h mission (List.mem_flatMap.mpr ⟨tree, List.mem_of_find?_eq_some htree,
          List.mem_of_find?_eq_some hmission⟩)

theorem tracked_renameMission {oldId newId : Str}
    (h : ∀ mission ∈ file.missions, mission.Tracked source renames)
    (hok : (file.renameMission treeId oldId newId).1 = .ok ()) :
    ∀ mission ∈ (file.renameMission treeId oldId newId).2.missions,
      mission.Tracked source (renames ++ [(oldId, newId)]) := by
  obtain ⟨-, -, -, -, heq⟩ := renameMission_ok hok
  rw [heq, missions_map]
  intro mission hmem
  obtain ⟨other, hother, rfl⟩ := List.mem_map.mp hmem
  have htracked := tracked_updateMission (f := fun mission => { mission with id := newId }) h
    (fun _ _ _ _ => ⟨rfl, rfl⟩) other hother
  refine ⟨?_, htracked.nonempty⟩
  rw [Mission.renameRequired, htracked.required, List.map_map]
  exact List.map_congr_left fun range _ => (currentName_append _ _ _ _).symm

end MissionFile

theorem Mission.required_dropRequired_iff {mission : Mission} {id : Str} :
    (mission.dropRequired id).required = mission.required ↔ id ∉ mission.required := by
  rw [Mission.dropRequired, List.filter_eq_self]
  constructor
  · intro h hmem
    exact absurd rfl (bne_iff_ne.mp (h id hmem))
  · intro h required hmem
    exact bne_iff_ne.mpr fun heq => h (heq ▸ hmem)

section

variable {source : List Char} {session next : Session} {edit : Edit}

/-- One step: an edit that leaves the prerequisites alone keeps every mission tracked. -/
theorem Session.Tracked.step (h : session.Tracked source)
    (hleaves : edit.LeavesRequired session.file) (hstep : session.step edit = some next) :
    next.Tracked source := by
  obtain ⟨changed, hchanged, rfl⟩ := Option.map_eq_some_iff.mp hstep
  have hok := Edit.step_eq_some_iff.mp hchanged
  have hkeep (hrenames : edit.renames = [])
      (h : ∀ mission ∈ changed.missions, mission.Tracked source session.renames) :
      Session.Tracked source ⟨changed, session.renames ++ edit.renames⟩ := by
    rw [hrenames, List.append_nil]
    exact h
  cases edit with
  | renameMission treeId oldId newId =>
    have hsnd : (session.file.renameMission treeId oldId newId).2 = changed :=
      congrArg Prod.snd hok
    exact hsnd ▸ MissionFile.tracked_renameMission h (congrArg Prod.fst hok)
  | addTree id =>
    obtain ⟨-, rfl⟩ := MissionFile.addTree_ok hok
    refine hkeep rfl fun mission hmem => ?_
    rw [MissionFile.missions, List.flatMap_append] at hmem
    rcases List.mem_append.mp hmem with hmem | hmem
    · exact h mission hmem
    · cases hmem
  | removeTree treeId =>
    rw [MissionFile.removeTree_ok hok] at hkeep ⊢
    refine hkeep rfl fun mission hmem => ?_
    obtain ⟨tree, htree, hmission⟩ := List.mem_flatMap.mp hmem
    exact h mission (List.mem_flatMap.mpr ⟨tree, List.mem_of_mem_filter htree, hmission⟩)
  | renameTree oldId newId =>
    obtain ⟨-, -, rfl⟩ := MissionFile.renameTree_ok hok
    exact hkeep rfl (MissionFile.tracked_updateTree h fun _ _ htracked => htracked)
  | addMission treeId id =>
    obtain ⟨-, -, -, rfl⟩ := MissionFile.addMission_ok hok
    refine hkeep rfl (MissionFile.tracked_updateTree h fun tree _ htracked mission hmem => ?_)
    rcases List.mem_append.mp hmem with hmem | hmem
    · exact htracked mission hmem
    · rw [List.mem_singleton.mp hmem]
      exact .new source _ id
  | removeMission treeId missionId =>
    obtain ⟨tree, htree, rfl⟩ := MissionFile.removeMission_ok hok
    refine hkeep rfl (MissionFile.tracked_updateTree h fun found hfound htracked mission hmem => ?_)
    obtain rfl : tree = found := Option.some.inj (htree.symm.trans hfound)
    obtain ⟨other, hother, rfl⟩ := List.mem_map.mp hmem
    obtain ⟨hother, hid⟩ := List.mem_filter.mp hother
    have hnot := hleaves tree htree other hother (bne_iff_ne.mp hid)
    exact (htracked other hother).congr (Mission.required_dropRequired_iff.mpr hnot) rfl
  | addRequired treeId missionId requiredId =>
    obtain ⟨-, tree, htree, mission, hmission, hcase⟩ := MissionFile.addRequired_ok hok
    rcases hcase with ⟨-, rfl⟩ | ⟨hnot, -⟩
    · exact hkeep rfl h
    · exact absurd (hleaves tree htree mission hmission) hnot
  | removeRequired treeId missionId requiredId =>
    obtain ⟨-, -, -, -, rfl⟩ := MissionFile.onMission_ok hok
    refine hkeep rfl (MissionFile.tracked_updateMission h fun tree htree mission hmission => ?_)
    exact ⟨Mission.required_dropRequired_iff.mpr (hleaves tree htree mission hmission), rfl⟩
  | setRequired treeId missionId required =>
    obtain ⟨-, -, -, -, -, rfl⟩ := MissionFile.setRequired_ok hok
    refine hkeep rfl (MissionFile.tracked_updateMission h fun tree htree mission hmission => ?_)
    exact ⟨hleaves tree htree mission hmission, rfl⟩
  | moveMission treeId missionId targetTreeId =>
    exact hkeep rfl (MissionFile.tracked_moveMission h hok)
  | setMissionPosition treeId missionId position =>
    exact hkeep rfl (MissionFile.tracked_onMission h hok fun _ => ⟨rfl, rfl⟩)
  | setMissionIcon treeId missionId icon =>
    exact hkeep rfl (MissionFile.tracked_onMission h hok fun _ => ⟨rfl, rfl⟩)
  | setMissionCompletedBy treeId missionId completedBy =>
    exact hkeep rfl (MissionFile.tracked_onMission h hok fun _ => ⟨rfl, rfl⟩)
  | setMissionBlock treeId missionId field text =>
    exact hkeep rfl (MissionFile.tracked_onMission h hok
      (by cases field <;> exact fun _ => ⟨rfl, rfl⟩))
  | setTreeBlock treeId field text =>
    exact hkeep rfl (MissionFile.tracked_onTree h hok (by cases field <;> exact fun _ => rfl))
  | setTreeSlot treeId slot => exact hkeep rfl (MissionFile.tracked_onTree h hok fun _ => rfl)
  | setTreeGeneric treeId generic =>
    exact hkeep rfl (MissionFile.tracked_onTree h hok fun _ => rfl)
  | setTreeAi treeId ai => exact hkeep rfl (MissionFile.tracked_onTree h hok fun _ => rfl)
  | setTreeCountryShield treeId shield =>
    exact hkeep rfl (MissionFile.tracked_onTree h hok fun _ => rfl)

/-- A mission whose ranges stay has the same prerequisites behind an edit without renaming, where
both files are parallel. -/
theorem Session.Tracked.required_eq (h : session.Tracked source) {changed : MissionFile}
    (hparallel : Parallel source ⟨changed, session.renames ++ []⟩) {mission mission' : Mission}
    (hmem : mission ∈ session.file.missions) (hmem' : mission' ∈ changed.missions)
    (hranges : mission'.requiredRanges = mission.requiredRanges) :
    mission'.required = mission.required := by
  have hnew := hparallel.required hmem' (hranges ▸ (h mission hmem).nonempty)
  rw [hnew, hranges, (h mission hmem).required, List.append_nil]

/-- An edit that leads to parallel ranges leaves the prerequisites alone. -/
theorem Session.Tracked.leavesRequired (h : session.Tracked source)
    (hstep : session.step edit = some next) (hparallel : Parallel source next) :
    edit.LeavesRequired session.file := by
  obtain ⟨changed, hchanged, rfl⟩ := Option.map_eq_some_iff.mp hstep
  have hok := Edit.step_eq_some_iff.mp hchanged
  -- the mission of both lookups, before and behind the edit
  have hfound {treeId missionId : Str} {tree : MissionTree}
      (htree : session.file.findTree treeId = some tree) {mission : Mission}
      (hmission : tree.findMission missionId = some mission) (f : Mission → Mission) :
      mission ∈ session.file.missions ∧
        f mission ∈ (session.file.updateMission treeId missionId f).missions := by
    obtain ⟨before, after, heq, hupdate⟩ := MissionFile.missions_updateMission htree hmission
    rw [heq, hupdate]
    exact ⟨List.mem_append_right _ List.mem_cons_self, List.mem_append_right _ List.mem_cons_self⟩
  cases edit with
  | addRequired treeId missionId requiredId =>
    intro tree htree mission hmission
    obtain ⟨-, tree', htree', mission', hmission', hcase⟩ := MissionFile.addRequired_ok hok
    obtain rfl : tree = tree' := Option.some.inj (htree.symm.trans htree')
    obtain rfl : mission = mission' := Option.some.inj (hmission.symm.trans hmission')
    rcases hcase with ⟨hmem, -⟩ | ⟨-, rfl⟩
    · exact hmem
    · obtain ⟨hmem, hmem'⟩ := hfound htree hmission fun mission =>
        { mission with required := mission.required ++ [requiredId] }
      have heq := h.required_eq hparallel hmem hmem' rfl
      have hlength := congrArg List.length heq
      rw [List.length_append, List.length_singleton] at hlength
      omega
  | removeRequired treeId missionId requiredId =>
    intro tree htree mission hmission
    obtain ⟨-, -, -, -, rfl⟩ := MissionFile.onMission_ok hok
    obtain ⟨hmem, hmem'⟩ := hfound htree hmission (Mission.dropRequired requiredId)
    exact Mission.required_dropRequired_iff.mp (h.required_eq hparallel hmem hmem' rfl)
  | setRequired treeId missionId required =>
    intro tree htree mission hmission
    obtain ⟨-, -, -, -, -, rfl⟩ := MissionFile.setRequired_ok hok
    obtain ⟨hmem, hmem'⟩ := hfound htree hmission fun mission =>
      { mission with required := MissionFile.keepFirst [] required }
    exact h.required_eq hparallel hmem hmem' rfl
  | removeMission treeId missionId =>
    intro tree htree other hother hid
    obtain ⟨tree', htree', rfl⟩ := MissionFile.removeMission_ok hok
    obtain rfl : tree = tree' := Option.some.inj (htree.symm.trans htree')
    have hmem : other ∈ session.file.missions :=
      List.mem_flatMap.mpr ⟨tree, List.mem_of_find?_eq_some htree, hother⟩
    refine Mission.required_dropRequired_iff.mp (h.required_eq hparallel hmem ?_ rfl)
    refine List.mem_flatMap.mpr ⟨_, updateFirst_mem htree, ?_⟩
    exact List.mem_map_of_mem (List.mem_filter.mpr ⟨hother, bne_iff_ne.mpr hid⟩)
  | _ => trivial

end

/-- A run of successful edits of a loaded file passes files with parallel ranges only, exactly if no
edit lets a prerequisite come or go in a mission that stays. -/
theorem parallel_run_iff {source : List Char} {loaded : LoadedFile}
    (hload : parseFile source = some loaded) (edits : List Edit) :
    Trace.Always Session.step (Parallel source) edits ⟨loaded.file, []⟩ ↔
      Trace.Allowed Session.step (fun session edit => edit.LeavesRequired session.file) edits
        ⟨loaded.file, []⟩ := by
  have hstart : Session.Tracked source ⟨loaded.file, []⟩ := tracked_parseFile hload
  refine Trace.always_iff_allowed ?_ ?_ ?_ hstart edits
  · exact fun session edit next (h : session.Tracked source) hleaves hstep => h.step hleaves hstep
  · exact fun session h => h.parallel
  · exact fun session edit next h hstep hparallel => h.leavesRequired hstep hparallel

/-- A tree `t` with a mission `x` that requires `a`. -/
def requiring : List Char := "t={x={required_missions={a}}}".toList

/-- The file that it loads to. -/
def requiringFile : MissionFile :=
  ⟨[{ MissionTree.new ['t'] with
      idRange := .sized 0 1
      span := .sized 0 29
      missions := [{ Mission.new ['x'] with
        idRange := .sized 3 1
        required := [['a']]
        requiredRanges := [.sized 25 1]
        span := .sized 3 25 }] }]⟩

theorem parseFile_requiring :
    (parseFile requiring).map LoadedFile.file = some requiringFile := by decide +kernel

theorem parallel_run_requiring : ∃ loaded, parseFile requiring = some loaded ∧
    (Trace.Always Session.step (Parallel requiring) [.renameMission ['t'] ['x'] ['y']]
        ⟨loaded.file, []⟩ ↔
      Trace.Allowed Session.step (fun session edit => edit.LeavesRequired session.file)
        [.renameMission ['t'] ['x'] ['y']] ⟨loaded.file, []⟩) := by
  obtain ⟨loaded, hload, -⟩ := Option.map_eq_some_iff.mp parseFile_requiring
  exact ⟨loaded, hload, parallel_run_iff hload _⟩

/-- A second prerequisite for `x` comes without a range. -/
theorem not_parallel_run : ¬ ∀ source loaded edits session, parseFile source = some loaded →
    Trace.run Session.step edits ⟨loaded.file, []⟩ = some session → Parallel source session := by
  intro h
  obtain ⟨loaded, hload, hfile⟩ := Option.map_eq_some_iff.mp parseFile_requiring
  obtain ⟨session, hrun, hlength⟩ : ∃ session,
      Trace.run Session.step [.addRequired ['t'] ['x'] ['b']] ⟨requiringFile, []⟩ = some session ∧
        ∃ mission ∈ session.file.missions,
          mission.requiredRanges.length ≠ mission.required.length := by
    refine ⟨⟨requiringFile.updateMission ['t'] ['x'] fun mission =>
      { mission with required := mission.required ++ [['b']] }, []⟩, rfl, ?_⟩
    exact ⟨_, List.mem_cons_self, by decide⟩
  obtain ⟨mission, hmem, hne⟩ := hlength
  exact hne ((h requiring loaded _ session hload (hfile ▸ hrun)).length mission hmem)

end ParadoxCode.Eu4
