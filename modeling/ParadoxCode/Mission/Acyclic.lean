import Mathlib.Data.List.Nodup
import ParadoxCode.Engine.DependencyGraph
import ParadoxCode.Mission.Validate

/-!
# Dependency cycles and the layout

`find_cycles` of `validate.rs` beside the spatial rule of `graph.rs`. A prerequisite that is legally
placed stands above its dependent, so that no cycle is left, except in the row of position 0: there
the row above is the row itself, because the subtraction saturates.
-/

namespace ParadoxCode.Eu4

open ParadoxCode.Engine

namespace MissionFile

/-- The mission of an id with its tree: the first one wins. -/
def missionOf (file : MissionFile) (id : Str) : Option (MissionTree × Mission) :=
  (file.trees.flatMap fun tree => tree.missions.map fun mission => (tree, mission)).find?
    fun (_, mission) => mission.id == id

/-- The missions as the nodes of a graph. -/
def dependencyNodes (file : MissionFile) : List (Str × List Str) :=
  file.missions.map fun mission => (mission.id, mission.required)

/-- The report on a cycle, at its first mission. -/
def cycleDiagnostic (file : MissionFile) (cycle : List Str) : Option Diagnostic := do
  let id ← cycle.head?
  let (tree, mission) ← file.missionOf id
  return missionScoped .error "dependency-cycle".toList tree mission mission.idRange
    ("mission dependency cycle: ".toList ++ " -> ".toList.intercalate cycle)

/-- `find_cycles`. -/
def findCycles (file : MissionFile) : Option (List Diagnostic) :=
  (DependencyGraph.new file.dependencyNodes).cycles.bind fun cycles =>
    cycles.mapM file.cycleDiagnostic

/-- A mission requires another mission of the file. -/
def Depends (file : MissionFile) (id required : Str) : Prop :=
  ∃ mission ∈ file.missions, mission.id = id ∧ required ∈ mission.required ∧
    required ∈ file.missionIds

/-- The effective position of a mission. -/
def rowOf (file : MissionFile) (id : Str) : Option Nat := (file.locOf id).map MissionLoc.position

/-- A dependency between missions at effective position 0, which is no row of the grid. -/
def DependsAtZero (file : MissionFile) (id required : Str) : Prop :=
  file.Depends id required ∧ file.rowOf id = some 0 ∧ file.rowOf required = some 0

/-- No mission depends on itself, directly or through others. -/
def Acyclic (depends : Str → Str → Prop) : Prop := ∀ id, ¬ Relation.TransGen depends id id

variable {file : MissionFile}

/-! ## The layout lists the missions -/

theorem map_treeLayout {tree : MissionTree} {index : Nat} (htree : file.trees[index]? = some tree) :
    ∀ (missions before : List Mission) (next : Nat), tree.missions = before ++ missions →
      (treeLayout index tree.slot before.length next missions).map file.idAt =
        missions.map fun mission => some mission.id := by
  intro missions
  induction missions with
  | nil =>
    intro before next h
    rfl
  | cons mission missions ih =>
    intro before next h
    have hrest := ih (before ++ [mission]) (asU32 (mission.position.getD next + 1))
      (by rw [h]; simp)
    rw [List.length_append, List.length_singleton] at hrest
    unfold treeLayout
    rw [List.map_cons, List.map_cons, hrest]
    congr 1
    unfold idAt
    dsimp only
    rw [htree, Option.bind_some, h, List.getElem?_append_right le_rfl, Nat.sub_self]
    rfl

/-- The locations stand for the missions, in order. -/
theorem map_idAt_effectiveLayout (file : MissionFile) :
    (effectiveLayout file).map file.idAt = file.missionIds.map some := by
  have hfst : file.trees = file.trees.zipIdx.map Prod.fst := List.zipIdx_map_fst _ _ |>.symm
  unfold effectiveLayout missionIds missions
  rw [List.map_flatMap, List.map_map, List.map_flatMap]
  conv_rhs => rw [hfst, List.flatMap_map]
  refine List.flatMap_congr fun ⟨tree, index⟩ hmem => ?_
  have htree := List.mk_mem_zipIdx_iff_getElem?.mp hmem
  exact map_treeLayout htree tree.missions [] 1 rfl

/-- With distinct ids the location of a mission is the one of its id. -/
theorem exists_loc (hids : file.missionIds.Nodup) {mission : Mission}
    (h : mission ∈ file.missions) :
    ∃ loc ∈ effectiveLayout file, file.locOf mission.id = some loc ∧
      (file.trees[loc.tree]?.bind fun tree => tree.missions[loc.mission]?) = some mission := by
  have hlayout := file.map_idAt_effectiveLayout
  have hnodup : ((effectiveLayout file).map file.idAt).Nodup := by
    rw [hlayout]
    exact List.Nodup.map (Option.some_injective _) hids
  have hmem : some mission.id ∈ (effectiveLayout file).map file.idAt := by
    rw [hlayout]
    exact List.mem_map_of_mem (List.mem_map_of_mem h)
  obtain ⟨loc, hloc, hid⟩ := List.mem_map.mp hmem
  refine ⟨loc, hloc, ?_, ?_⟩
  · unfold locOf
    cases hfind : (effectiveLayout file).reverse.find? fun loc =>
      file.idAt loc == some mission.id with
    | none =>
      have hno := List.find?_eq_none.mp hfind loc (List.mem_reverse.mpr hloc)
      rw [hid, beq_self_eq_true] at hno
      exact absurd rfl hno
    | some found =>
      have hfound := List.mem_reverse.mp (List.mem_of_find?_eq_some hfind)
      have hsame : file.idAt found = some mission.id := by
        have hbeq := List.find?_some hfind
        exact eq_of_beq hbeq
      rw [List.inj_on_of_nodup_map hnodup hfound hloc (hsame.trans hid.symm)]
  · unfold idAt at hid
    obtain ⟨found, hfound, hsame⟩ := Option.map_eq_some_iff.mp hid
    obtain ⟨tree, htree, hmission⟩ := Option.bind_eq_some_iff.mp hfound
    rw [hfound]
    congr 1
    exact List.inj_on_of_nodup_map hids (mem_missions_of_getElem? htree hmission) h hsame

/-! ## Legal edges lead upwards -/

/-- Where no edge violates the spatial rule, the prerequisite of an edge stands above its dependent,
or both stand at position 0. -/
theorem Depends.rows (hids : file.missionIds.Nodup) (hlegal : file.spatialViolations = [])
    {id required : Str} (h : file.Depends id required) :
    ∃ row above, file.rowOf id = some row ∧ file.rowOf required = some above ∧
      (above < row ∨ row = 0 ∧ above = 0) := by
  obtain ⟨mission, hmission, rfl, hrequired, hmem⟩ := h
  obtain ⟨prerequisite, hprerequisite, rfl⟩ := List.mem_map.mp hmem
  obtain ⟨loc, hloc, hlocOf, hat⟩ := exists_loc hids hmission
  obtain ⟨prereq, -, hprereqOf, -⟩ := exists_loc hids hprerequisite
  refine ⟨loc.position, prereq.position, by rw [rowOf, hlocOf]; rfl, by rw [rowOf, hprereqOf]; rfl,
    ?_⟩
  have hlegalEdge : isSpatiallyLegal prereq loc = true := by
    by_contra hno
    obtain ⟨index, hindex⟩ := List.getElem?_of_mem hrequired
    have hviolation : (⟨loc.tree, loc.mission, prerequisite.id, index⟩ : SpatialViolation) ∈
        file.spatialViolations := by
      unfold spatialViolations
      refine List.mem_flatMap.mpr ⟨loc, hloc, ?_⟩
      rw [hat]
      refine List.mem_filterMap.mpr ⟨(prerequisite.id, index),
        List.mk_mem_zipIdx_iff_getElem?.mpr hindex, ?_⟩
      dsimp only
      rw [hprereqOf]
      exact if_neg hno
    rw [hlegal] at hviolation
    cases hviolation
  unfold isSpatiallyLegal at hlegalEdge
  simp only [Bool.or_eq_true, beq_iff_eq, Bool.and_eq_true, decide_eq_true_eq] at hlegalEdge
  omega

/-- A walk along legal edges leads upwards, or it stays at position 0. -/
theorem rows_of_transGen (hids : file.missionIds.Nodup) (hlegal : file.spatialViolations = [])
    {id required : Str} (h : Relation.TransGen file.Depends id required) :
    (∃ row above, file.rowOf id = some row ∧ file.rowOf required = some above ∧ above < row) ∨
      Relation.TransGen file.DependsAtZero id required := by
  have hedge {id required : Str} (h : file.Depends id required) :
      (∃ row above, file.rowOf id = some row ∧ file.rowOf required = some above ∧ above < row) ∨
        file.DependsAtZero id required := by
    obtain ⟨row, above, hrow, habove, hlt | ⟨rfl, rfl⟩⟩ := h.rows hids hlegal
    · exact Or.inl ⟨row, above, hrow, habove, hlt⟩
    · exact Or.inr ⟨h, hrow, habove⟩
  induction h with
  | single h => exact (hedge h).imp_right .single
  | @tail between required hwalk hlast ih =>
    rcases ih with ⟨row, above, hrow, habove, hlt⟩ | hzero
    · left
      rcases hedge hlast with ⟨row', above', hrow', habove', hlt'⟩ | ⟨-, hrow', habove'⟩
      · cases habove.symm.trans hrow'
        exact ⟨row, above', hrow, habove', by omega⟩
      · cases habove.symm.trans hrow'
        exact ⟨row, 0, hrow, habove', hlt⟩
    · rcases hedge hlast with ⟨row', above', hrow', -, hlt'⟩ | hlast
      · obtain ⟨_, -, hedge'⟩ := Relation.TransGen.tail'_iff.mp hzero
        cases hedge'.2.2.symm.trans hrow'
        exact absurd hlt' (Nat.not_lt_zero _)
      · exact Or.inr (hzero.tail hlast)

/-! ## Reported cycles are cycles of the file -/

theorem depends_of_edge {id target : Nat}
    (h : (DependencyGraph.new file.dependencyNodes).Edge id target) :
    file.Depends ((DependencyGraph.new file.dependencyNodes).name id)
      ((DependencyGraph.new file.dependencyNodes).name target) := by
  obtain ⟨node, hnode, hid, htarget, hdeclared⟩ := DependencyGraph.declares_of_edge h
  obtain ⟨mission, hmission, rfl⟩ := List.mem_map.mp hnode
  unfold dependencyNodes at hdeclared
  rw [List.map_map] at hdeclared
  exact ⟨mission, hmission, hid.symm, htarget, hdeclared⟩

/-- Without a cycle there is nothing to report. -/
theorem findCycles_eq_nil (h : Acyclic file.Depends) : file.findCycles = some [] := by
  obtain ⟨cycles, hcycles, hsound⟩ :=
    DependencyGraph.exists_cycles (DependencyGraph.new file.dependencyNodes)
  have hnone : cycles = [] := by
    refine List.eq_nil_iff_forall_not_mem.mpr fun cycle hcycle => ?_
    obtain ⟨walk, hwalk, -⟩ := hsound cycle hcycle
    obtain ⟨node, hnode⟩ := hwalk.transGen
    exact h _ (hnode.lift (DependencyGraph.new file.dependencyNodes).name fun _ _ =>
      depends_of_edge)
  unfold findCycles
  rw [hcycles, hnone]
  rfl

/-- A file whose ids are distinct and whose edges are all legally placed has no dependency cycle,
and none is reported, if and only if the missions at position 0 have none among themselves. -/
theorem acyclic_iff (file : MissionFile) (hids : file.missionIds.Nodup)
    (hlegal : file.spatialViolations = []) :
    Acyclic file.Depends ∧ file.findCycles = some [] ↔ Acyclic file.DependsAtZero := by
  constructor
  · rintro ⟨hacyclic, -⟩ id hcycle
    exact hacyclic id (Relation.TransGen.mono (fun _ _ h => h.1) _ _ hcycle)
  · intro hzero
    have hacyclic : Acyclic file.Depends := by
      intro id hcycle
      rcases rows_of_transGen hids hlegal hcycle with ⟨row, above, hrow, habove, hlt⟩ | hcycle
      · cases hrow.symm.trans habove
        exact absurd hlt (Nat.lt_irrefl _)
      · exact hzero id hcycle
    exact ⟨hacyclic, findCycles_eq_nil hacyclic⟩

/-- A tree of one mission, written at a position, that requires itself. -/
def selfRequiring (position : Nat) : MissionFile :=
  ⟨[{ MissionTree.new ['t'] with
    missions := [{ Mission.new ['m'] with required := [['m']], position := some position }] }]⟩

theorem acyclic_iff_selfRequiring :
    (Acyclic (selfRequiring 0).Depends ∧ (selfRequiring 0).findCycles = some [] ↔
      Acyclic (selfRequiring 0).DependsAtZero) :=
  acyclic_iff (selfRequiring 0) (by decide) (by decide)

/-- At position 0 the row above is the row itself: a mission that requires itself is legally
placed. -/
theorem not_acyclic_selfRequiring : ¬ ∀ file : MissionFile, file.missionIds.Nodup →
    file.spatialViolations = [] → Acyclic file.Depends ∧ file.findCycles = some [] := by
  intro h
  refine (h (selfRequiring 0) (by decide) (by decide)).1 ['m'] (.single ?_)
  exact ⟨_, List.mem_singleton_self _, rfl, List.mem_singleton_self _, List.mem_singleton_self _⟩

end MissionFile

end ParadoxCode.Eu4
