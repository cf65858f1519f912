import ParadoxCode.Mission.Model

/-!
# Diagnostics on prerequisites

The parts of `validate.rs` and `graph.rs` that report a prerequisite at the range of its token.
-/

namespace ParadoxCode.Eu4

inductive Severity where
  | error
  | warning
  deriving DecidableEq

/-- One structural problem found in a mission file. -/
structure Diagnostic where
  severity : Severity
  code : Str
  message : Str
  range : TextRange
  tree : Str
  mission : Option Str
  deriving DecidableEq

/-- `mission_scoped`. -/
def missionScoped (severity : Severity) (code : Str) (tree : MissionTree) (mission : Mission)
    (range : TextRange) (message : Str) : Diagnostic :=
  ⟨severity, code, message, range, tree.id, some mission.id⟩

/-- The range that a prerequisite is reported at. -/
def Mission.requiredRange (mission : Mission) (index : Nat) : TextRange :=
  mission.requiredRanges[index]?.getD mission.idRange

def danglingMessage (mission required : Str) : Str :=
  "mission `".toList ++ mission ++ "` requires unknown mission `".toList ++ required ++ "`".toList

def placementMessage (mission required : Str) : Str :=
  "mission `".toList ++ mission ++ "` requires `".toList ++ required ++
    "`, but the prerequisite is not on the row directly above or directly above in the same column".toList

/-- One dependency edge that violates the spatial legality rule. -/
structure SpatialViolation where
  tree : Nat
  mission : Nat
  required : Str
  requiredIndex : Nat

namespace MissionFile

variable (file : MissionFile)

/-- The prerequisites that neither the file nor the other files of the workspace have. -/
def danglingRequired (universeIds : List Str) : List Diagnostic :=
  file.trees.flatMap fun tree => tree.missions.flatMap fun mission =>
    mission.required.zipIdx.filterMap fun (required, index) =>
      if required ∈ file.missionIds ∨ required ∈ universeIds then none
      else some (missionScoped .error "dangling-required".toList tree mission
        (mission.requiredRange index) (danglingMessage mission.id required))

/-- `spatial_violations`. -/
def spatialViolations : List SpatialViolation :=
  (effectiveLayout file).flatMap fun loc =>
    match file.trees[loc.tree]?.bind fun tree => tree.missions[loc.mission]? with
    | none => []
    | some mission => mission.required.zipIdx.filterMap fun (required, index) =>
      match file.locOf required with
      | none => none
      | some prereq =>
        if isSpatiallyLegal prereq loc then none else some ⟨loc.tree, loc.mission, required, index⟩

/-- The reports on these edges. -/
def illegalEdges : List Diagnostic :=
  file.spatialViolations.filterMap fun violation =>
    file.trees[violation.tree]?.bind fun tree =>
      tree.missions[violation.mission]?.map fun mission =>
        missionScoped .warning "illegal-edge-placement".toList tree mission
          (mission.requiredRange violation.requiredIndex)
          (placementMessage mission.id violation.required)

/-- The diagnostics of `validate_with_universe_ids` that point at a prerequisite. -/
def requiredDiagnostics (universeIds : List Str) : List Diagnostic :=
  file.danglingRequired universeIds ++ file.illegalEdges

end MissionFile

/-! ## What they point at -/

/-- A report on one prerequisite of a mission. -/
structure Reports (file : MissionFile) (diagnostic : Diagnostic) (mission : Mission) (index : Nat)
    (required : Str) : Prop where
  mem : mission ∈ file.missions
  listed : mission.required[index]? = some required
  range : diagnostic.range = mission.requiredRange index
  message : diagnostic.message = danglingMessage mission.id required ∨
    diagnostic.message = placementMessage mission.id required

namespace MissionFile

variable {file : MissionFile} {diagnostic : Diagnostic}

theorem mem_missions_of_getElem? {i j : Nat} {tree : MissionTree} {mission : Mission}
    (htree : file.trees[i]? = some tree) (hmission : tree.missions[j]? = some mission) :
    mission ∈ file.missions :=
  List.mem_flatMap.mpr ⟨tree, List.mem_of_getElem? htree, List.mem_of_getElem? hmission⟩

theorem reports_of_danglingRequired {universeIds : List Str}
    (h : diagnostic ∈ file.danglingRequired universeIds) :
    ∃ mission index required, Reports file diagnostic mission index required := by
  obtain ⟨tree, htree, h⟩ := List.mem_flatMap.mp h
  obtain ⟨mission, hmission, h⟩ := List.mem_flatMap.mp h
  obtain ⟨⟨required, index⟩, hrequired, h⟩ := List.mem_filterMap.mp h
  dsimp only at h
  split_ifs at h with hknown
  cases h
  exact ⟨mission, index, required, List.mem_flatMap.mpr ⟨tree, htree, hmission⟩,
    List.mk_mem_zipIdx_iff_getElem?.mp hrequired, rfl, Or.inl rfl⟩

theorem mem_spatialViolations {violation : SpatialViolation}
    (h : violation ∈ file.spatialViolations)
    {tree : MissionTree} (htree : file.trees[violation.tree]? = some tree) {mission : Mission}
    (hmission : tree.missions[violation.mission]? = some mission) :
    mission.required[violation.requiredIndex]? = some violation.required := by
  obtain ⟨loc, -, h⟩ := List.mem_flatMap.mp h
  cases hfound : file.trees[loc.tree]?.bind fun tree => tree.missions[loc.mission]? with
  | none => rw [hfound] at h; cases h
  | some found =>
    rw [hfound] at h
    obtain ⟨⟨required, index⟩, hrequired, h⟩ := List.mem_filterMap.mp h
    dsimp only at h
    split at h
    · cases h
    · split_ifs at h with hlegal
      cases h
      rw [htree, Option.bind_some, hmission] at hfound
      cases hfound
      exact List.mk_mem_zipIdx_iff_getElem?.mp hrequired

theorem reports_of_illegalEdges (h : diagnostic ∈ file.illegalEdges) :
    ∃ mission index required, Reports file diagnostic mission index required := by
  obtain ⟨violation, hviolation, h⟩ := List.mem_filterMap.mp h
  obtain ⟨tree, htree, h⟩ := Option.bind_eq_some_iff.mp h
  obtain ⟨mission, hmission, rfl⟩ := Option.map_eq_some_iff.mp h
  exact ⟨mission, violation.requiredIndex, violation.required,
    mem_missions_of_getElem? htree hmission, mem_spatialViolations hviolation htree hmission, rfl,
    Or.inr rfl⟩

/-- Each of the diagnostics reports one prerequisite, at the range of its index. -/
theorem reports_of_requiredDiagnostics {universeIds : List Str}
    (h : diagnostic ∈ file.requiredDiagnostics universeIds) :
    ∃ mission index required, Reports file diagnostic mission index required := by
  rcases List.mem_append.mp h with h | h
  · exact reports_of_danglingRequired h
  · exact reports_of_illegalEdges h

end MissionFile

end ParadoxCode.Eu4
