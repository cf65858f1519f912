import Mathlib.Data.List.Nodup
import ParadoxCode.Mission.Load
import ParadoxCode.Parser.SourceOrder

/-!
# The layout of a mission file

`effective_layout` and `layout_file` impute a position that is not written as the previous one plus
one, each in a loop of its own. Here the additions are checked: `none` is an addition that leaves
`u32`.
-/

namespace ParadoxCode.Eu4

open ParadoxCode.Parser (parse)

/-! ## The two loops -/

/-- The loop of `effective_layout` over the missions of a tree. -/
def treeLayoutChecked (tree slot : Nat) : Nat → Nat → List Mission → Option (List MissionLoc)
  | _, _, [] => some []
  | index, nextPosition, mission :: missions => do
    let position := mission.position.getD nextPosition
    let nextPosition ← tryU32 (position + 1)
    let locs ← treeLayoutChecked tree slot (index + 1) nextPosition missions
    some (⟨tree, index, slot, position⟩ :: locs)

/-- `effective_layout`, from the tree at `index` on. -/
def effectiveLayoutFrom : Nat → List MissionTree → Option (List MissionLoc)
  | _, [] => some []
  | index, tree :: trees => do
    let locs ← treeLayoutChecked index tree.slot 0 1 tree.missions
    let rest ← effectiveLayoutFrom (index + 1) trees
    some (locs ++ rest)

def effectiveLayoutChecked (file : MissionFile) : Option (List MissionLoc) :=
  effectiveLayoutFrom 0 file.trees

/-- Grid position of one mission. -/
structure NodePosition where
  treeIndex : Nat
  missionIndex : Nat
  column : Nat
  row : Nat
  deriving DecidableEq

/-- The loop of `layout_file` over the missions of a tree. -/
def treeNodes (treeIndex column : Nat) : Nat → Nat → List Mission → Option (List NodePosition)
  | _, _, [] => some []
  | missionIndex, nextRow, mission :: missions => do
    let row := mission.position.getD nextRow
    let nextRow ← tryU32 (row + 1)
    let nodes ← treeNodes treeIndex column (missionIndex + 1) nextRow missions
    some (⟨treeIndex, missionIndex, column, row - 1⟩ :: nodes)

/-- `layout_file`, from the tree at `treeIndex` on. -/
def layoutFileFrom : Nat → List MissionTree → Option (List NodePosition)
  | _, [] => some []
  | treeIndex, tree :: trees => do
    let column := tree.slot - 1
    let nodes ← treeNodes treeIndex column 0 1 tree.missions
    let rest ← layoutFileFrom (treeIndex + 1) trees
    some (nodes ++ rest)

def layoutFile (file : MissionFile) : Option (List NodePosition) := layoutFileFrom 0 file.trees

/-! ## The two loops agree -/

/-- Where the grid shows a location. -/
def MissionLoc.node (loc : MissionLoc) : NodePosition :=
  ⟨loc.tree, loc.mission, loc.slot - 1, loc.position - 1⟩

theorem treeNodes_eq (tree slot index next : Nat) (missions : List Mission) :
    treeNodes tree (slot - 1) index next missions =
      (treeLayoutChecked tree slot index next missions).map (List.map MissionLoc.node) := by
  induction missions generalizing index next with
  | nil => rfl
  | cons mission missions ih =>
    unfold treeNodes treeLayoutChecked
    dsimp only
    cases tryU32 (mission.position.getD next + 1) with
    | none => rfl
    | some after =>
      simp only [Option.bind_eq_bind, Option.bind_some]
      rw [ih]
      cases treeLayoutChecked tree slot (index + 1) after missions <;> rfl

theorem layoutFileFrom_eq (index : Nat) (trees : List MissionTree) :
    layoutFileFrom index trees = (effectiveLayoutFrom index trees).map
      (List.map MissionLoc.node) := by
  induction trees generalizing index with
  | nil => rfl
  | cons tree trees ih =>
    unfold layoutFileFrom effectiveLayoutFrom
    dsimp only
    rw [treeNodes_eq, ih]
    cases treeLayoutChecked index tree.slot 0 1 tree.missions with
    | none => rfl
    | some locs =>
      cases effectiveLayoutFrom (index + 1) trees with
      | none => rfl
      | some rest => exact congrArg some List.map_append.symm

/-! ## Every mission is visited once -/

/-- The mission of a location. -/
def MissionLoc.index (loc : MissionLoc) : Nat × Nat := (loc.tree, loc.mission)

theorem map_index_treeLayout {tree slot index next : Nat} {missions : List Mission}
    {locs : List MissionLoc} (h : treeLayoutChecked tree slot index next missions = some locs) :
    locs.map MissionLoc.index = (List.range' index missions.length).map (tree, ·) := by
  induction missions generalizing index next locs with
  | nil =>
    cases h
    rfl
  | cons mission missions ih =>
    unfold treeLayoutChecked at h
    obtain ⟨after, -, h⟩ := Option.bind_eq_some_iff.mp h
    obtain ⟨rest, hrest, h⟩ := Option.bind_eq_some_iff.mp h
    cases h
    rw [List.map_cons, ih hrest, List.length_cons, List.range'_succ, List.map_cons]
    rfl

theorem mem_effectiveLayoutFrom {index : Nat} {trees : List MissionTree} {locs : List MissionLoc}
    (h : effectiveLayoutFrom index trees = some locs) (at' : Nat × Nat) :
    at' ∈ locs.map MissionLoc.index ↔
      index ≤ at'.1 ∧ ∃ tree, trees[at'.1 - index]? = some tree ∧ at'.2 < tree.missions.length := by
  induction trees generalizing index locs with
  | nil =>
    cases h
    simp
  | cons tree trees ih =>
    unfold effectiveLayoutFrom at h
    obtain ⟨first, hfirst, h⟩ := Option.bind_eq_some_iff.mp h
    obtain ⟨rest, hrest, h⟩ := Option.bind_eq_some_iff.mp h
    cases h
    have hmem : at' ∈ first.map MissionLoc.index ↔ at'.1 = index ∧
      at'.2 < tree.missions.length := by
      rw [map_index_treeLayout hfirst, List.mem_map]
      constructor
      · rintro ⟨mission, hmission, rfl⟩
        rw [List.mem_range'_1] at hmission
        exact ⟨rfl, by dsimp only; omega⟩
      · rintro ⟨hindex, hlt⟩
        exact ⟨at'.2, List.mem_range'_1.mpr ⟨Nat.zero_le _, by omega⟩, Prod.ext hindex.symm rfl⟩
    rw [List.map_append, List.mem_append, hmem, ih hrest]
    constructor
    · rintro (⟨hindex, hlt⟩ | ⟨hle, other, hother, hlt⟩)
      · refine ⟨Nat.le_of_eq hindex.symm, tree, ?_, hlt⟩
        rw [hindex, Nat.sub_self]
        rfl
      · refine ⟨by omega, other, ?_, hlt⟩
        rw [show at'.1 - index = at'.1 - (index + 1) + 1 from by omega,
          List.getElem?_cons_succ, hother]
    · rintro ⟨hle, other, hother, hlt⟩
      rcases Nat.eq_or_lt_of_le hle with heq | hgt
      · rw [← heq, Nat.sub_self, List.getElem?_cons_zero, Option.some.injEq] at hother
        subst hother
        exact .inl ⟨heq.symm, hlt⟩
      · rw [show at'.1 - index = at'.1 - (index + 1) + 1 from by omega,
          List.getElem?_cons_succ] at hother
        exact .inr ⟨hgt, other, hother, hlt⟩

theorem nodup_effectiveLayoutFrom {index : Nat} {trees : List MissionTree} {locs : List MissionLoc}
    (h : effectiveLayoutFrom index trees = some locs) : (locs.map MissionLoc.index).Nodup := by
  induction trees generalizing index locs with
  | nil =>
    cases h
    exact .nil
  | cons tree trees ih =>
    unfold effectiveLayoutFrom at h
    obtain ⟨first, hfirst, h⟩ := Option.bind_eq_some_iff.mp h
    obtain ⟨rest, hrest, h⟩ := Option.bind_eq_some_iff.mp h
    cases h
    rw [List.map_append, List.nodup_append]
    refine ⟨?_, ih hrest, ?_⟩
    · rw [map_index_treeLayout hfirst]
      exact List.Nodup.map (fun _ _ heq => (Prod.mk.inj heq).2) List.nodup_range'
    · intro at' hmem other hother heq
      subst heq
      rw [map_index_treeLayout hfirst, List.mem_map] at hmem
      obtain ⟨mission, -, rfl⟩ := hmem
      have := ((mem_effectiveLayoutFrom hrest _).mp hother).1
      dsimp only at this
      omega

/-! ## Positions that fit -/

/-- The position before the missions behind `before`: nothing is written in front of the first
mission, and none is given by a mission that has no position of its own. -/
def writtenFrom (start : Nat) (before : List Mission) : Option Nat :=
  match before.getLast? with
  | none => some start
  | some mission => mission.position

/-- The missions without a position behind a written position do not count up to `u32::MAX`. -/
def FitsFrom (start : Nat) (missions : List Mission) : Prop :=
  ∀ before gap after, missions = before ++ (gap ++ after) →
    (∀ mission ∈ gap, mission.position = none) → ∀ position ∈ writtenFrom start before,
    position + gap.length < u32Max

/-- In every tree, a written position `p` has fewer than `u32::MAX - p` missions without a position
behind it, and the tree starts with fewer than `u32::MAX` such missions. -/
def MissionFile.Fits (file : MissionFile) : Prop := ∀ tree ∈ file.trees, FitsFrom 0 tree.missions

theorem FitsFrom.lt {start : Nat} {missions : List Mission} (h : FitsFrom start missions) :
    start < u32Max :=
  h [] [] missions rfl (by simp) start rfl

theorem writtenFrom_cons (start : Nat) (mission : Mission) {before : List Mission} (h : before ≠ [])
    (other : Nat) : writtenFrom start (mission :: before) = writtenFrom other before := by
  unfold writtenFrom
  rw [List.getLast?_cons]
  cases hlast : before.getLast? with
  | none => exact absurd (List.getLast?_eq_none_iff.mp hlast) h
  | some last => rfl

theorem fitsFrom_cons_iff {start : Nat} {mission : Mission} {missions : List Mission} :
    FitsFrom start (mission :: missions) ↔
      start < u32Max ∧ FitsFrom (mission.position.getD (start + 1)) missions := by
  constructor
  · intro h
    refine ⟨h.lt, fun before gap after heq hgap position hposition => ?_⟩
    by_cases hbefore : before = []
    · subst hbefore
      cases hposition
      cases hwritten : mission.position with
      | some written => exact h [mission] gap after (by rw [heq]; rfl) hgap written hwritten
      | none =>
        have hfits := h [] (mission :: gap) after (by rw [heq]; rfl)
          (List.forall_mem_cons.mpr ⟨hwritten, hgap⟩) start rfl
        rw [List.length_cons] at hfits
        rw [Option.getD_none]
        omega
    · exact h (mission :: before) gap after (by rw [heq]; rfl) hgap position
        (by rw [writtenFrom_cons start mission hbefore]; exact hposition)
  · rintro ⟨hstart, h⟩ before gap after heq hgap position hposition
    cases before with
    | nil =>
      cases hposition
      cases gap with
      | nil => exact hstart
      | cons first gap =>
        obtain ⟨rfl, htail⟩ := List.cons.inj heq
        have hnone := hgap mission List.mem_cons_self
        have hfits := h [] gap after htail (fun other hother =>
          hgap other (List.mem_cons_of_mem _ hother)) (start + 1) (by rw [hnone]; rfl)
        rw [List.length_cons]
        omega
    | cons first before =>
      obtain ⟨rfl, htail⟩ := List.cons.inj heq
      by_cases hbefore : before = []
      · subst hbefore
        have hwritten : mission.position = some position := hposition
        exact h [] gap after htail hgap position (by rw [hwritten]; rfl)
      · exact h before gap after htail hgap position
          (by rw [← writtenFrom_cons start mission hbefore]; exact hposition)

theorem treeLayoutChecked_isSome_iff {tree slot index start : Nat} {missions : List Mission}
    (h : start < u32Max) : (treeLayoutChecked tree slot index (start + 1) missions).isSome = true ↔
    FitsFrom start missions := by
  induction missions generalizing index start with
  | nil =>
    refine iff_of_true rfl fun before gap after heq _ position hposition => ?_
    obtain ⟨rfl, hrest⟩ := List.append_eq_nil_iff.mp heq.symm
    obtain ⟨rfl, -⟩ := List.append_eq_nil_iff.mp hrest
    cases hposition
    exact h
  | cons mission missions ih =>
    rw [fitsFrom_cons_iff, and_iff_right h]
    unfold treeLayoutChecked
    dsimp only
    by_cases hlt : mission.position.getD (start + 1) < u32Max
    · rw [← @ih (index + 1) _ hlt, tryU32_eq_some_iff.mpr ⟨hlt, rfl⟩, Option.bind_eq_bind,
        Option.bind_some]
      cases treeLayoutChecked tree slot (index + 1) (mission.position.getD (start + 1) + 1)
        missions <;> rfl
    · have hnone : tryU32 (mission.position.getD (start + 1) + 1) = none := by
        unfold tryU32
        rw [if_neg (by omega)]
      rw [hnone]
      exact iff_of_false Bool.false_ne_true fun hfits => hlt hfits.lt

theorem effectiveLayoutFrom_isSome_iff {index : Nat} {trees : List MissionTree} :
    (effectiveLayoutFrom index trees).isSome = true ↔ ∀ tree ∈ trees, FitsFrom 0 tree.missions := by
  induction trees generalizing index with
  | nil => simp [effectiveLayoutFrom]
  | cons tree trees ih =>
    have hfirst := @treeLayoutChecked_isSome_iff index tree.slot 0 0 tree.missions (by decide)
    rw [List.forall_mem_cons, ← @ih (index + 1), ← hfirst, effectiveLayoutFrom, Nat.zero_add]
    cases treeLayoutChecked index tree.slot 0 1 tree.missions with
    | none => simp
    | some locs => cases effectiveLayoutFrom (index + 1) trees <;> simp

/-! ## The layout of a source -/

/-- No addition of the two layouts overflows, each mission is visited once, and the grid shows the
location that `effective_layout` gives. -/
structure MissionFile.ConsistentLayout (file : MissionFile) (locs : List MissionLoc)
    (nodes : List NodePosition) :
    Prop where
  layout : effectiveLayoutChecked file = some locs
  grid : layoutFile file = some nodes
  once : (locs.map MissionLoc.index).Nodup
  visits : ∀ tree mission, (tree, mission) ∈ locs.map MissionLoc.index ↔
    ∃ found, file.trees[tree]? = some found ∧ mission < found.missions.length
  agree : nodes = locs.map fun loc => ⟨loc.tree, loc.mission, loc.slot - 1, loc.position - 1⟩

theorem consistentLayout_iff (file : MissionFile) :
    (∃ locs nodes, file.ConsistentLayout locs nodes) ↔ file.Fits := by
  unfold MissionFile.Fits
  rw [← @effectiveLayoutFrom_isSome_iff 0, Option.isSome_iff_exists]
  constructor
  · rintro ⟨locs, nodes, h⟩
    exact ⟨locs, h.layout⟩
  · rintro ⟨locs, hlayout⟩
    refine ⟨locs, locs.map MissionLoc.node, hlayout, ?_, nodup_effectiveLayoutFrom hlayout,
      fun tree mission => ?_, rfl⟩
    · unfold layoutFile
      rw [layoutFileFrom_eq, hlayout]
      rfl
    · rw [mem_effectiveLayoutFrom hlayout (tree, mission), and_iff_right (Nat.zero_le _)]
      rfl

/-- **The mission layout of a source is free of overflows and consistent** exactly where the imputed
positions fit. -/
theorem parseFile_consistentLayout_iff (source : Str) : ∀ loaded ∈ parseFile source,
    ((∃ locs nodes, loaded.file.ConsistentLayout locs nodes) ↔ loaded.file.Fits) :=
  fun loaded _ => consistentLayout_iff loaded.file

/-- A mission in the last row of the grid. -/
def lastRow : Str := "t = { slot = 1 m = { position = 4294967295 } }".toList

theorem lastRow_overflows : (parseFile lastRow).map
    (fun loaded => effectiveLayoutChecked loaded.file) = some none := by
  decide +kernel

theorem lastRow_consistentLayout_iff : ∃ loaded, parseFile lastRow = some loaded ∧
    ((∃ locs nodes, loaded.file.ConsistentLayout locs nodes) ↔ loaded.file.Fits) := by
  obtain ⟨loaded, hload, -⟩ := Option.map_eq_some_iff.mp lastRow_overflows
  exact ⟨loaded, hload, parseFile_consistentLayout_iff lastRow loaded hload⟩

/-- The layout of a source may overflow. -/
theorem not_consistentLayout : ¬∀ source loaded, parseFile source = some loaded →
    ∃ locs nodes, loaded.file.ConsistentLayout locs nodes := by
  intro h
  obtain ⟨loaded, hload, hnone⟩ := Option.map_eq_some_iff.mp lastRow_overflows
  obtain ⟨locs, nodes, hlayout⟩ := h lastRow loaded hload
  rw [hlayout.layout] at hnone
  cases hnone

end ParadoxCode.Eu4
