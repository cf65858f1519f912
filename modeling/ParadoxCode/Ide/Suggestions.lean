import ParadoxCode.Format.Paths
import ParadoxCode.Lib.EditDistance
import ParadoxCode.Lib.StableSort
import Mathlib.Data.Char
import Mathlib.Data.List.Destutter
import Mathlib.Data.List.GetD
import Mathlib.Data.List.Lex
import Mathlib.Data.List.TakeWhile
import Mathlib.Data.Prod.Lex

/-!
# Did-you-mean suggestions

`suggest.rs` and `LocalisationKeyIndex` of `semantic.rs`: the names closest to a value that is none.
Only the cells of the two rows of the distance that are near the diagonal are written, and the rows
stay from one candidate to the next.
-/

namespace ParadoxCode.Ide.Suggest

open EditDistance
open StableSort (sortByKey perm_sortByKey pairwise_sortByKey)
open Format (eqIgnoreAsciiCase)

/-! ## Distance -/

structure DistanceWorkspace where
  query : List Char
  candidate : List Char
  previous : List Nat
  current : List Nat

namespace DistanceWorkspace

def new (query : Str) : DistanceWorkspace := ⟨toAsciiLowercase query, [], [], []⟩

/-- `Vec::resize`. -/
def resize (row : List Nat) (length fill : Nat) : List Nat :=
  row.take length ++ List.replicate (length - row.length) fill

/-- One cell of the row below `previous`, with the least cell so far. -/
def fillCell (previous : List Nat) (letter : Option Char) (candidate : List Char)
    (row : List Nat × Nat) (j : Nat) : List Nat × Nat :=
  let cost := if letter = candidate[j - 1]? then 0 else 1
  let cell := min (min (previous.getD j 0 + 1) (row.1.getD (j - 1) 0 + 1))
    (previous.getD (j - 1) 0 + cost)
  (row.1.set j cell, min row.2 cell)

/-- The cells that stand beside the band of row `i`. -/
def startRow (current : List Nat) (bound m i first last : Nat) : List Nat :=
  let row := current.set 0 (min i (bound + 1))
  let row := if 1 < first then row.set (first - 1) (bound + 1) else row
  if last < m then row.set (last + 1) (bound + 1) else row

/-- Row `i`, and its least cell. -/
def fillRow (query candidate : List Char) (bound i : Nat) (previous current : List Nat) :
    List Nat × Nat :=
  let m := candidate.length
  let first := max (i - bound) 1
  let last := min (i + bound) m
  let row := startRow current bound m i first last
  (List.range' first (last + 1 - first)).foldl (fillCell previous query[i - 1]? candidate)
    (row, row.getD 0 0)

/-- The rows that are left, from row `i`. -/
def fillRows (query candidate : List Char) (bound : Nat) : Nat → Nat → List Nat × List Nat →
    Option Nat × List Nat × List Nat
  | 0, _, (previous, current) =>
    (Option.filter (fun distance => distance ≤ bound) (some (previous.getD candidate.length 0)),
      previous, current)
  | rest + 1, i, (previous, current) =>
    let filled := fillRow query candidate bound i previous current
    if bound < filled.2 then (none, previous, filled.1)
    else fillRows query candidate bound rest (i + 1) (filled.1, previous)

/-- The row of the empty front. -/
def firstRow (previous : List Nat) (bound m : Nat) : List Nat :=
  ((resize previous (m + 1) (bound + 1)).map fun _ => bound + 1).mapIdx fun j cell =>
    if j < bound + 1 then j else cell

/-- `DistanceWorkspace::distance`. -/
def distance (workspace : DistanceWorkspace) (candidate : Str)
    (bound : Nat) : Option Nat × DistanceWorkspace :=
  let folded := toAsciiLowercase candidate
  let n := workspace.query.length
  let m := folded.length
  if bound < (n - m) + (m - n) then (none, { workspace with candidate := folded })
  else if n = 0 then (some m, { workspace with candidate := folded })
  else
    let bound := min bound (max n m)
    let rows := (firstRow workspace.previous bound m, resize workspace.current (m + 1) (bound + 1))
    let filled := fillRows workspace.query folded bound n 1 rows
    (filled.1, ⟨workspace.query, folded, filled.2.1, filled.2.2⟩)

/-- The distances of candidates, one behind the other. -/
def distances (workspace : DistanceWorkspace) : List (Str × Nat) → List (Option Nat)
  | [] => []
  | (candidate, bound) :: rest =>
    let measured := workspace.distance candidate bound
    measured.1 :: distances measured.2 rest

end DistanceWorkspace

/-! ## The band -/

section Band

open DistanceWorkspace

variable (query candidate : List Char) (bound : Nat)

/-- The distance of two fronts. -/
def cell (i j : Nat) : Nat := levenshtein (query.take i) (candidate.take j)

/-- The row agrees with the distances of the fronts beside the diagonal, up to the bound. -/
structure Banded (i : Nat) (row : List Nat) : Prop where
  length : row.length = candidate.length + 1
  cells : ∀ j ≤ candidate.length, i ≤ j + bound + 1 → j ≤ i + bound + 1 →
    min (row.getD j 0) (bound + 1) = min (cell query candidate i j) (bound + 1)

variable {query candidate bound}

theorem getD_set_self {row : List Nat} {j x : Nat} (h : j < row.length) :
    (row.set j x).getD j 0 = x := by
  rw [List.getD_eq_getElem?_getD, List.getElem?_set_self h, Option.getD_some]

theorem getD_set_ne {row : List Nat} {i j x : Nat} (h : i ≠ j) :
    (row.set i x).getD j 0 = row.getD j 0 := by
  rw [List.getD_eq_getElem?_getD, List.getElem?_set_ne h, List.getD_eq_getElem?_getD]

theorem cell_zero_left {j : Nat} (h : j ≤ candidate.length) : cell query candidate 0 j = j := by
  unfold cell
  rw [List.take_zero, levenshtein_nil_left, List.length_take, Nat.min_eq_left h]

theorem cell_zero_right {i : Nat} (h : i ≤ query.length) : cell query candidate i 0 = i := by
  unfold cell
  rw [List.take_zero, levenshtein_nil_right, List.length_take, Nat.min_eq_left h]

/-- A cell by its neighbours. -/
theorem cell_succ_succ {i j : Nat} (hi : i < query.length) (hj : j < candidate.length) :
    cell query candidate (i + 1) (j + 1) =
      min (min (cell query candidate i (j + 1) + 1) (cell query candidate (i + 1) j + 1))
        (cell query candidate i j + if query[i]? = candidate[j]? then 0 else 1) := by
  unfold cell
  rw [List.take_succ_eq_append_getElem hi, List.take_succ_eq_append_getElem hj,
    levenshtein_concat_concat, List.getElem?_eq_getElem hi, List.getElem?_eq_getElem hj]
  simp only [Option.some.injEq]

/-- A cell is as far as it is off the diagonal. -/
theorem le_cell {i j : Nat} (hi : i ≤ query.length) (hj : j ≤ candidate.length) :
    i ≤ j + cell query candidate i j ∧ j ≤ i + cell query candidate i j := by
  have h := length_le_levenshtein (query.take i) (candidate.take j)
  rwa [List.length_take, List.length_take, Nat.min_eq_left hi, Nat.min_eq_left hj] at h

theorem length_startRow {current : List Nat} {i first last : Nat} :
    (startRow current bound candidate.length i first last).length = current.length := by
  unfold startRow
  split_ifs <;> simp

/-- What stands beside the band of a row. -/
theorem getD_startRow {current : List Nat} {i first last j : Nat}
    (hlength : current.length = candidate.length + 1)
    (hfirst : first = max (i - bound) 1) (hlast : last = min (i + bound) candidate.length)
    (hclose : i ≤ candidate.length + bound) (hj : j ≤ candidate.length)
    (hbeside : j = 0 ∨ j = first - 1 ∨ j = last + 1) :
    (startRow current bound candidate.length i first last).getD j 0 = if j = 0 then
      min i (bound + 1) else bound + 1 := by
  have hstart : first = i - bound ∧ 1 < first ∨ first = 1 ∧ i ≤ bound + 1 := by omega
  have hzero : (current.set 0 (min i (bound + 1))).getD 0 0 = min i (bound + 1) :=
    getD_set_self (by omega)
  unfold startRow
  dsimp only
  by_cases hj0 : j = 0
  · rw [if_pos hj0, hj0]
    split_ifs with h h' h'
    · rw [getD_set_ne (by omega), getD_set_ne (by omega), hzero]
    · rw [getD_set_ne (by omega), hzero]
    · rw [getD_set_ne (by omega), hzero]
    · exact hzero
  rw [if_neg hj0]
  obtain rfl | hj | hj := hbeside
  · exact absurd rfl hj0
  · have h : 1 < first := by omega
    rw [if_pos h, hj]
    split_ifs with h'
    · rw [getD_set_ne (by omega), getD_set_self (by rw [List.length_set]; omega)]
    · rw [getD_set_self (by rw [List.length_set]; omega)]
  · have h' : last < candidate.length := by omega
    rw [if_pos h', hj]
    split_ifs with h
    · rw [getD_set_self (by rw [List.length_set, List.length_set]; omega)]
    · rw [getD_set_self (by rw [List.length_set]; omega)]

/-- The cells of a row that are written so far. -/
structure Written (query candidate : List Char) (bound i first : Nat)
    (start : List Nat) (done : Nat)
    (row : List Nat × Nat) : Prop where
  length : row.1.length = candidate.length + 1
  cells : ∀ j, first ≤ j + 1 → j < first + done →
    min (row.1.getD j 0) (bound + 1) = min (cell query candidate i j) (bound + 1)
  ahead : ∀ j, first + done ≤ j → row.1.getD j 0 = start.getD j 0
  least : row.2 ≤ start.getD 0 0 ∧ ∀ j, first ≤ j → j < first + done → row.2 ≤ row.1.getD j 0

/-- Numbers that agree up to a cap agree up to it behind the same steps. -/
theorem cap_add {a b cap : Nat} (h : min a cap = min b cap) (k : Nat) :
    min (a + k) cap = min (b + k) cap := by
  omega

theorem cap_min {a a' b b' cap : Nat} (ha : min a cap = min a' cap) (hb : min b cap = min b' cap) :
    min (min a b) cap = min (min a' b') cap := by
  have h : ∀ x y : Nat, min (min x y) cap = min (min x cap) (min y cap) :=
    fun x y => inf_inf_distrib_right x y cap
  rw [h, h, ha, hb]

theorem Written.step {i first done : Nat} {previous start : List Nat} {row : List Nat × Nat}
    (h : Written query candidate bound (i + 1) first start done row)
    (hprevious : Banded query candidate bound i previous)
    (hi : i < query.length) (hfirst : 0 < first) (hlow : i + 1 ≤ first + bound)
    (hj : first + done ≤ candidate.length) (hhigh : first + done ≤ i + 1 + bound) :
    Written query candidate bound (i + 1) first start (done + 1)
      (fillCell previous query[i]? candidate row (first + done)) := by
  obtain ⟨j, hjsucc⟩ : ∃ j, first + done = j + 1 := ⟨first + done - 1, by omega⟩
  have habove := hprevious.cells (j + 1) (by omega) (by omega) (by omega)
  have hcorner := hprevious.cells j (by omega) (by omega) (by omega)
  have hleft := h.cells j (by omega) (by omega)
  have hcell := cell_succ_succ hi (show j < candidate.length by omega)
  rw [hjsucc]
  unfold fillCell
  rw [Nat.add_sub_cancel]
  generalize hcost : (if query[i]? = candidate[j]? then 0 else 1) = cost at hcell
  have hset : j + 1 < row.1.length := by
    rw [h.length]
    omega
  constructor
  · rw [List.length_set, h.length]
  · intro j' hj' hlt
    by_cases heq : j' = j + 1
    · rw [heq, getD_set_self hset, hcell]
      exact cap_min (cap_min (cap_add habove 1) (cap_add hleft 1)) (cap_add hcorner cost)
    · rw [getD_set_ne (Ne.symm heq)]
      exact h.cells j' hj' (by omega)
  · intro j' hj'
    rw [getD_set_ne (by omega)]
    exact h.ahead j' (by omega)
  · refine ⟨(min_le_left _ _).trans h.least.1, fun j' hj' hlt => ?_⟩
    by_cases heq : j' = j + 1
    · rw [heq, getD_set_self hset]
      exact min_le_right _ _
    · rw [getD_set_ne (Ne.symm heq)]
      exact (min_le_left _ _).trans (h.least.2 j' hj' (by omega))

theorem Written.run {i first : Nat} {previous start : List Nat} {row : List Nat × Nat}
    (h : Written query candidate bound (i + 1) first start 0 row)
    (hprevious : Banded query candidate bound i previous)
    (hi : i < query.length) (hfirst : 0 < first) (hlow : i + 1 ≤ first + bound) :
    ∀ count, first + count ≤ candidate.length + 1 → first + count ≤ i + 2 + bound →
      Written query candidate bound (i + 1) first start count
        ((List.range' first count).foldl (fillCell previous query[i]? candidate) row) := by
  intro count
  induction count with
  | zero => exact fun _ _ => h
  | succ count ih =>
    intro hcount hhigh
    rw [List.range'_1_concat, List.foldl_append]
    exact (ih (by omega) (by omega)).step hprevious hi hfirst hlow (by omega) (by omega)

/-- A row below a banded one is banded, and where its least cell is beyond the bound, so is the
row. -/
theorem banded_fillRow {i : Nat} {previous current : List Nat}
    (hprevious : Banded query candidate bound i previous)
    (hcurrent : current.length = candidate.length + 1) (hi : i < query.length)
    (hclose : query.length ≤ candidate.length + bound) :
    Banded query candidate bound (i + 1)
      (fillRow query candidate bound (i + 1) previous current).1 ∧
      (bound < (fillRow query candidate bound (i + 1) previous current).2 →
        ∀ j ≤ candidate.length, bound < cell query candidate (i + 1) j) := by
  unfold fillRow
  dsimp only
  rw [Nat.add_sub_cancel]
  generalize hfirst : max (i + 1 - bound) 1 = first
  generalize hlast : min (i + 1 + bound) candidate.length = last
  have hnear : i + 1 ≤ candidate.length + bound := by omega
  have hbeside := fun j => @getD_startRow candidate bound current (i + 1) first last j hcurrent
    hfirst.symm hlast.symm hnear
  generalize hstart : startRow current bound candidate.length (i + 1) first last =
    start at hbeside ⊢
  have hlength : start.length = candidate.length + 1 := by
    rw [← hstart, length_startRow, hcurrent]
  have hzero := @cell_zero_right query candidate (i + 1) hi
  -- the cell in front of the band
  have hfront : ∀ j, first ≤ j + 1 → j < first → min (start.getD j 0) (bound + 1) =
    min (cell query candidate (i + 1) j) (bound + 1) := by
    intro j hj hlt
    have hcell := @le_cell query candidate (i + 1) j hi
      (show j ≤ candidate.length by omega)
    rw [hbeside j (by omega) (by omega)]
    split_ifs with h
    · rw [h, hzero]
      omega
    · omega
  have hwritten : Written query candidate bound (i + 1) first start 0 (start, start.getD 0 0) :=
    ⟨hlength, fun j hj hlt => hfront j hj (by omega), fun _ _ => rfl, le_rfl,
      fun j hj hlt => by omega⟩
  have hrow := hwritten.run hprevious hi (by omega) (by omega) (last + 1 - first)
    (by omega) (by omega)
  generalize (List.range' first (last + 1 - first)).foldl (fillCell previous query[i]? candidate)
    (start, start.getD 0 0) = row at hrow
  refine ⟨⟨hrow.length, fun j hj hlow hhigh => ?_⟩, fun hleast j hj => ?_⟩
  · by_cases hlt : j < first + (last + 1 - first)
    · exact hrow.cells j (by omega) hlt
    · have hcell := @le_cell query candidate (i + 1) j hi hj
      rw [hrow.ahead j (by omega), hbeside j hj (by omega), if_neg (by omega)]
      omega
  · have hcell := @le_cell query candidate (i + 1) j hi hj
    by_cases hband : first ≤ j ∧ j < first + (last + 1 - first)
    · have hmin := hrow.least.2 j hband.1 hband.2
      have heq := hrow.cells j (by omega) hband.2
      omega
    · have hmin := hrow.least.1
      have hstartzero := hbeside 0 (Nat.zero_le _) (.inl rfl)
      rw [if_pos rfl] at hstartzero
      by_cases hj0 : j = 0
      · rw [hj0, hzero]
        omega
      · omega

/-- The rows that are left give the distance, up to the bound. -/
theorem fillRows_eq {rest i : Nat} {previous current : List Nat}
    (hprevious : Banded query candidate bound i previous)
    (hcurrent : current.length = candidate.length + 1) (hrest : i + rest = query.length)
    (hclose : query.length ≤ candidate.length + bound ∧ candidate.length ≤ query.length + bound) :
    (fillRows query candidate bound rest (i + 1) (previous, current)).1 =
      if levenshtein query candidate ≤ bound then some (levenshtein query candidate) else none := by
  induction rest generalizing i previous current with
  | zero =>
    have hi : i = query.length := by omega
    have hlast := hprevious.cells candidate.length le_rfl (by omega) (by omega)
    have hcell : cell query candidate i candidate.length = levenshtein query candidate := by
      unfold cell
      rw [hi, List.take_length, List.take_length]
    rw [hcell] at hlast
    rw [fillRows, Option.filter_some]
    simp only [decide_eq_true_eq]
    by_cases h : levenshtein query candidate ≤ bound
    · have heq : previous.getD candidate.length 0 = levenshtein query candidate := by omega
      rw [if_pos h, heq, if_pos h]
    · have hgt : ¬ previous.getD candidate.length 0 ≤ bound := by omega
      rw [if_neg h, if_neg hgt]
  | succ rest ih =>
    obtain ⟨hbanded, hbeyond⟩ := banded_fillRow hprevious hcurrent
      (show i < query.length by omega) hclose.1
    rw [fillRows]
    split_ifs with hleast h h
    · obtain ⟨j, hj, hle⟩ := exists_take_le query candidate (i + 1)
      have hcell := hbeyond hleast j hj
      unfold cell at hcell
      omega
    · rfl
    · rw [ih hbanded hprevious.length (by omega), if_pos h]
    · rw [ih hbanded hprevious.length (by omega), if_neg h]

theorem length_resize (row : List Nat) (length fill : Nat) :
    (resize row length fill).length = length := by
  unfold resize
  rw [List.length_append, List.length_take, List.length_replicate]
  omega

theorem banded_firstRow (row : List Nat) : Banded query candidate bound 0
    (firstRow row bound candidate.length) := by
  have hlength := length_resize row (candidate.length + 1) (bound + 1)
  unfold firstRow
  constructor
  · rw [List.length_mapIdx, List.length_map, hlength]
  · intro j hj _ hhigh
    rw [cell_zero_left hj, List.getD_eq_getElem?_getD, List.getElem?_mapIdx, List.getElem?_map,
      List.getElem?_eq_getElem (show j < _ by omega)]
    simp only [Option.map_some, Option.getD_some]
    split_ifs <;> omega

end Band

/-- **The distance** without regard to ASCII case, where it is within the bound, whatever the rows
hold. -/
theorem distance_eq (workspace : DistanceWorkspace) (candidate : Str) (bound : Nat) :
    (workspace.distance candidate bound).1 =
      if levenshtein workspace.query (toAsciiLowercase candidate) ≤ bound then
        some (levenshtein workspace.query (toAsciiLowercase candidate))
      else none := by
  have hlength := length_le_levenshtein workspace.query (toAsciiLowercase candidate)
  have hmax := levenshtein_le_max workspace.query (toAsciiLowercase candidate)
  unfold DistanceWorkspace.distance
  dsimp only
  by_cases hgap : bound < workspace.query.length - (toAsciiLowercase candidate).length +
      ((toAsciiLowercase candidate).length - workspace.query.length)
  · rw [if_pos hgap, if_neg (by omega)]
  rw [if_neg hgap]
  by_cases hempty : workspace.query.length = 0
  · rw [if_pos hempty, List.length_eq_zero_iff.mp hempty, levenshtein_nil_left, if_pos (by omega)]
  rw [if_neg hempty]
  generalize hcut : min bound (max workspace.query.length (toAsciiLowercase candidate).length) = cut
  have hclose : workspace.query.length ≤ (toAsciiLowercase candidate).length + cut ∧
      (toAsciiLowercase candidate).length ≤ workspace.query.length + cut := by
    omega
  rw [fillRows_eq (banded_firstRow _) (length_resize _ _ _) (Nat.zero_add _) hclose]
  by_cases h : levenshtein workspace.query (toAsciiLowercase candidate) ≤ bound
  · rw [if_pos h, if_pos (by omega)]
  · rw [if_neg h, if_neg (by omega)]

theorem query_distance (workspace : DistanceWorkspace) (candidate : Str) (bound : Nat) :
    (workspace.distance candidate bound).2.query = workspace.query := by
  unfold DistanceWorkspace.distance
  dsimp only
  split_ifs <;> rfl

/-- What a workspace measures does not depend on the candidates before. -/
theorem distances_eq (workspace : DistanceWorkspace) (candidates : List (Str × Nat)) :
    workspace.distances candidates = candidates.map fun (candidate, bound) =>
      if levenshtein workspace.query (toAsciiLowercase candidate) ≤ bound then
        some (levenshtein workspace.query (toAsciiLowercase candidate))
      else none := by
  induction candidates generalizing workspace with
  | nil => rfl
  | cons first rest ih =>
    obtain ⟨candidate, bound⟩ := first
    rw [DistanceWorkspace.distances]
    dsimp only
    rw [ih, query_distance, distance_eq, List.map_cons]

/-! ## Suggestion -/

/-- `MAX_DISTANCE`. -/
def maxDistance : Nat := 2

/-- `MIN_CANDIDATE_LEN`. -/
def minCandidateLen : Nat := 3

/-- The candidates that are left, with the best one so far, its distance, and whether it is tied. -/
def scan (keyLen : Nat) : DistanceWorkspace → Option (Str × Nat) → Bool → List Str → Option Str
  | _, some (best, _), tied, [] => if tied = true then none else some best
  | _, none, _, [] => none
  | workspace, best, tied, candidate :: rest =>
    if maxDistance < (candidate.length - keyLen) + (keyLen - candidate.length) then
      scan keyLen workspace best tied rest
    else if candidate.length < minCandidateLen then scan keyLen workspace best tied rest
    else
      let measured := workspace.distance candidate maxDistance
      match measured.1 with
      | none => scan keyLen measured.2 best tied rest
      | some distance =>
        if distance = 0 then some candidate
        else
          match best with
          | none => scan keyLen measured.2 (some (candidate, distance)) tied rest
          | some (bestCandidate, bestDistance) =>
            if distance < bestDistance then scan keyLen measured.2
              (some (candidate, distance)) false rest
            else if distance = bestDistance ∧ eqIgnoreAsciiCase candidate bestCandidate = false then
              scan keyLen measured.2 best true rest
            else scan keyLen measured.2 best tied rest

def bestSuggestion (key : Str) (candidates : List Str) : Option Str :=
  scan (DistanceWorkspace.new key).query.length (DistanceWorkspace.new key) none false candidates

/-- The distance without regard to ASCII case. -/
def far (key candidate : Str) : Nat := levenshtein (toAsciiLowercase key)
    (toAsciiLowercase candidate)

/-- The candidate is long enough, and near enough. -/
def Eligible (key candidate : Str) : Prop := minCandidateLen ≤ candidate.length ∧
    far key candidate ≤ maxDistance

/-- The candidate is, up to ASCII case, the only one at the least distance. -/
def Closest (key : Str) (candidates : List Str) (candidate : Str) : Prop :=
  Eligible key candidate ∧ ∀ other ∈ candidates, Eligible key other →
    far key candidate ≤ far key other ∧
      (far key other = far key candidate → toAsciiLowercase other = toAsciiLowercase candidate)

instance (key candidate : Str) : Decidable (Eligible key candidate) :=
  inferInstanceAs (Decidable (_ ∧ _))

instance (key : Str) (candidates : List Str) (candidate : Str) :
    Decidable (Closest key candidates candidate) :=
  inferInstanceAs (Decidable (_ ∧ ∀ other ∈ candidates, _ → _))

section Suggestion

variable {key candidate : Str} {seen rest : List Str}

/-- The best candidate among the ones that have been seen. -/
inductive Summary (key : Str) (seen : List Str) : Option (Str × Nat) → Bool → Prop
  | nothing : (∀ other ∈ seen, ¬ Eligible key other) → Summary key seen none false
  | found {front back : List Str} {best : Str} {tied : Bool} : seen = front ++ best :: back →
      Eligible key best →
    0 < far key best → (∀ other ∈ front, Eligible key other → far key best < far key other) →
    (∀ other ∈ back, Eligible key other → far key best ≤ far key other) →
    (tied = true ↔ ∃ other ∈ back, Eligible key other ∧ far key other = far key best ∧
      toAsciiLowercase other ≠ toAsciiLowercase best) →
    Summary key seen (some (best, far key best)) tied

theorem eqIgnoreAsciiCase_eq_false {left right : Str} :
    eqIgnoreAsciiCase left right = false ↔ toAsciiLowercase left ≠ toAsciiLowercase right :=
  beq_eq_false_iff_ne

/-- A candidate that is not eligible changes nothing. -/
theorem Summary.skip {best : Option (Str × Nat)} {tied : Bool} (h : Summary key seen best tied)
    (hcandidate : ¬ Eligible key candidate) : Summary key (seen ++ [candidate]) best tied := by
  cases h with
  | nothing hnone =>
    refine .nothing fun other hother => ?_
    rcases List.mem_append.mp hother with hother | hother
    · exact hnone other hother
    · rwa [List.mem_singleton.mp hother]
  | @found front back best tied hseen hbest hpos hfront hback htied =>
    refine @Summary.found _ _ front (back ++ [candidate]) _ _ (by rw [hseen]; simp) hbest hpos
      hfront (fun other hother => ?_) ?_
    · rcases List.mem_append.mp hother with hother | hother
      · exact hback other hother
      · rw [List.mem_singleton.mp hother]
        exact fun h => absurd h hcandidate
    · rw [htied]
      constructor
      · rintro ⟨other, hother, h⟩
        exact ⟨other, List.mem_append_left _ hother, h⟩
      · rintro ⟨other, hother, h⟩
        rcases List.mem_append.mp hother with hother | hother
        · exact ⟨other, hother, h⟩
        · rw [List.mem_singleton.mp hother] at h
          exact absurd h.1 hcandidate

/-- A candidate that is no nearer is tied, where it is another name as near. -/
theorem Summary.behind {best : Str} {tied : Bool}
    (h : Summary key seen (some (best, far key best)) tied)
    (hcandidate : Eligible key candidate) (hle : far key best ≤ far key candidate) :
    Summary key (seen ++ [candidate]) (some (best, far key best))
      (tied || decide (far key candidate = far key best ∧
        toAsciiLowercase candidate ≠ toAsciiLowercase best)) := by
  generalize hstate : some (best, far key best) = state at h
  cases h with
  | nothing => cases hstate
  | @found front back known tied hseen hbest hpos hfront hback htied =>
    obtain rfl : best = known := congrArg Prod.fst (Option.some.inj hstate)
    refine @Summary.found _ _ front (back ++ [candidate]) _ _ (by rw [hseen]; simp) hbest hpos
      hfront (fun other hother => ?_) ?_
    · rcases List.mem_append.mp hother with hother | hother
      · exact hback other hother
      · rw [List.mem_singleton.mp hother]
        exact fun _ => hle
    · rw [Bool.or_eq_true, htied, decide_eq_true_eq]
      constructor
      · rintro (⟨other, hother, h⟩ | h)
        · exact ⟨other, List.mem_append_left _ hother, h⟩
        · exact ⟨candidate, List.mem_append_right _ List.mem_cons_self, hcandidate, h⟩
      · rintro ⟨other, hother, h⟩
        rcases List.mem_append.mp hother with hother | hother
        · exact .inl ⟨other, hother, h⟩
        · rw [List.mem_singleton.mp hother] at h
          exact .inr h.2

/-- A candidate that is nearer is the best one. -/
theorem Summary.ahead {best : Option (Str × Nat)} {tied : Bool} (h : Summary key seen best tied)
    (hcandidate : Eligible key candidate) (hpos : 0 < far key candidate)
    (hlt : ∀ known ∈ best, far key candidate < known.2) :
    Summary key (seen ++ [candidate]) (some (candidate, far key candidate)) false := by
  have hahead : ∀ other ∈ seen, Eligible key other → far key candidate < far key other := by
    intro other hother heligible
    cases h with
    | nothing hnone => exact absurd heligible (hnone other hother)
    | @found front back best tied hseen hbest _ hfront hback _ =>
      have hnear := hlt _ rfl
      rw [hseen] at hother
      rcases List.mem_append.mp hother with hother | hother
      · exact hnear.trans (hfront other hother heligible)
      · rcases List.mem_cons.mp hother with rfl | hother
        · exact hnear
        · exact hnear.trans_le (hback other hother heligible)
  exact @Summary.found _ _ seen [] _ _ rfl hcandidate hpos hahead (fun _ h => nomatch h)
    (iff_of_false Bool.false_ne_true fun ⟨_, h, _⟩ => nomatch h)

/-- What is returned at the end. -/
theorem Summary.result {best : Option (Str × Nat)} {tied : Bool} (h : Summary key seen best tied)
    (keyLen : Nat) (workspace : DistanceWorkspace) :
    scan keyLen workspace best tied [] = seen.find? fun candidate =>
      decide (Closest key seen candidate) := by
  cases h with
  | nothing hnone =>
    rw [scan, eq_comm, List.find?_eq_none]
    intro other hother hclosest
    exact hnone other hother (of_decide_eq_true hclosest).1
  | @found front back best tied hseen hbest hpos hfront hback htied =>
    have hmem : best ∈ seen := by
      rw [hseen]
      exact List.mem_append_right _ List.mem_cons_self
    have hleast : ∀ other ∈ seen, Eligible key other → far key best ≤ far key other := by
      intro other hother heligible
      rw [hseen] at hother
      rcases List.mem_append.mp hother with hother | hother
      · exact (hfront other hother heligible).le
      · rcases List.mem_cons.mp hother with rfl | hother
        · exact le_rfl
        · exact hback other hother heligible
    rw [scan]
    by_cases htie : tied = true
    · -- two names at the least distance
      rw [if_pos htie, eq_comm, List.find?_eq_none]
      intro candidate hcandidate hclosest
      obtain ⟨heligible, hclosest⟩ := of_decide_eq_true hclosest
      obtain ⟨other, hother, hothereligible, hfar, hname⟩ := htied.mp htie
      have hotherseen : other ∈ seen := by
        rw [hseen]
        exact List.mem_append_right _ (List.mem_cons_of_mem _ hother)
      have hbestfar : far key best = far key candidate :=
        le_antisymm (hleast candidate hcandidate heligible) (hclosest best hmem hbest).1
      have hbestname := (hclosest best hmem hbest).2 hbestfar
      exact hname (((hclosest other hotherseen hothereligible).2 (hfar.trans hbestfar)).trans
        hbestname.symm)
    · rw [if_neg htie, eq_comm, hseen, List.find?_eq_some_iff_append, ← hseen]
      have hclosest : Closest key seen best := by
        refine ⟨hbest, fun other hother heligible =>
          ⟨hleast other hother heligible, fun hfar => ?_⟩⟩
        rw [hseen] at hother
        rcases List.mem_append.mp hother with hother | hother
        · have hgt := hfront other hother heligible
          omega
        · rcases List.mem_cons.mp hother with rfl | hother
          · rfl
          · by_contra hname
            exact htie (htied.mpr ⟨other, hother, heligible, hfar, hname⟩)
      refine ⟨decide_eq_true hclosest, front, back, hseen, fun other hother => ?_⟩
      rw [Bool.not_eq_true', decide_eq_false_iff_not]
      intro hother'
      have hgt := hfront other hother hother'.1
      have hle := (hother'.2 best hmem hbest).1
      omega

/-- A candidate that is the key up to ASCII case is the suggestion. -/
theorem Summary.exact {best : Option (Str × Nat)} {tied : Bool} (h : Summary key seen best tied)
    (hcandidate : Eligible key candidate) (hzero : far key candidate = 0) :
    (seen ++ candidate :: rest).find?
      (fun other => decide (Closest key (seen ++ candidate :: rest) other)) =
      some candidate := by
  have hname : ∀ other, far key other = 0 → toAsciiLowercase other = toAsciiLowercase key :=
    fun other hfar =>
    (levenshtein_eq_zero_iff.mp hfar).symm
  have hclosest : Closest key (seen ++ candidate :: rest) candidate := by
    refine ⟨hcandidate, fun other _ _ => ⟨by rw [hzero]; exact Nat.zero_le _, fun hfar => ?_⟩⟩
    rw [hname other (hfar.trans hzero), hname candidate hzero]
  have hpos : ∀ other ∈ seen, Eligible key other → 0 < far key other := by
    intro other hother heligible
    cases h with
    | nothing hnone => exact absurd heligible (hnone other hother)
    | @found front back best tied hseen hbest hpos hfront hback _ =>
      rw [hseen] at hother
      rcases List.mem_append.mp hother with hother | hother
      · exact hpos.trans (hfront other hother heligible)
      · rcases List.mem_cons.mp hother with rfl | hother
        · exact hpos
        · exact hpos.trans_le (hback other hother heligible)
  refine List.find?_eq_some_iff_append.mpr ⟨decide_eq_true hclosest, seen, rest, rfl,
    fun other hother => ?_⟩
  rw [Bool.not_eq_true', decide_eq_false_iff_not]
  intro hother'
  have hle := (hother'.2 candidate (List.mem_append_right _ List.mem_cons_self) hcandidate).1
  have hgt := hpos other hother hother'.1
  omega

/-- The scan from what has been seen to the end. -/
theorem scan_eq {workspace : DistanceWorkspace} (hquery : workspace.query = toAsciiLowercase key)
    {best : Option (Str × Nat)} {tied : Bool} (h : Summary key seen best tied) :
    scan key.length workspace best tied rest =
      (seen ++ rest).find? fun candidate => decide (Closest key (seen ++ rest) candidate) := by
  induction rest generalizing seen workspace best tied with
  | nil =>
    rw [List.append_nil]
    exact h.result key.length workspace
  | cons candidate rest ih =>
    have hlength := length_le_levenshtein (toAsciiLowercase key) (toAsciiLowercase candidate)
    have hfolded : ∀ text : Str, (toAsciiLowercase text).length = text.length :=
      fun text => List.length_map _
    rw [hfolded, hfolded] at hlength
    have hskip : ¬ Eligible key candidate → ∀ workspace : DistanceWorkspace,
      workspace.query = toAsciiLowercase key →
        scan key.length workspace best tied rest =
          (seen ++ candidate :: rest).find? fun other =>
            decide (Closest key (seen ++ candidate :: rest) other) := by
      intro hnot workspace hquery
      rw [List.append_cons]
      exact ih hquery (h.skip hnot)
    rw [scan]
    by_cases hgap : maxDistance < candidate.length - key.length + (key.length - candidate.length)
    · rw [if_pos hgap]
      refine hskip (fun heligible => ?_) workspace hquery
      have hfar := heligible.2
      unfold far at hfar
      omega
    rw [if_neg hgap]
    by_cases hshort : candidate.length < minCandidateLen
    · rw [if_pos hshort]
      exact hskip (fun heligible => absurd heligible.1 (by omega)) workspace hquery
    rw [if_neg hshort]
    have hmeasured := (query_distance workspace candidate maxDistance).trans hquery
    dsimp only
    rw [distance_eq, hquery]
    by_cases hnear : far key candidate ≤ maxDistance
    · have hcandidate : Eligible key candidate := ⟨Nat.le_of_not_lt hshort, hnear⟩
      rw [show levenshtein (toAsciiLowercase key) (toAsciiLowercase candidate) =
        far key candidate from rfl, if_pos hnear]
      dsimp only
      by_cases hzero : far key candidate = 0
      · rw [if_pos hzero]
        exact (h.exact hcandidate hzero).symm
      rw [if_neg hzero, List.append_cons]
      have hpos : 0 < far key candidate := Nat.pos_of_ne_zero hzero
      cases h with
      | nothing hnone => exact ih hmeasured ((Summary.nothing hnone).ahead hcandidate hpos
          (fun _ h => nomatch h))
      | @found front back known tied hseen hbest hknown hfront hback htied =>
        have h : Summary key seen (some (known, far key known)) tied :=
          .found hseen hbest hknown hfront hback htied
        dsimp only
        by_cases hlt : far key candidate < far key known
        · rw [if_pos hlt]
          refine ih hmeasured (h.ahead hcandidate hpos fun other hother => ?_)
          rw [← Option.some.inj hother]
          exact hlt
        · rw [if_neg hlt]
          have hbehind := h.behind hcandidate (Nat.le_of_not_lt hlt)
          by_cases htie : far key candidate = far key known ∧
            eqIgnoreAsciiCase candidate known = false
          · rw [if_pos htie]
            rw [eqIgnoreAsciiCase_eq_false] at htie
            rw [decide_eq_true htie, Bool.or_true] at hbehind
            exact ih hmeasured hbehind
          · rw [if_neg htie]
            rw [eqIgnoreAsciiCase_eq_false] at htie
            rw [decide_eq_false htie, Bool.or_false] at hbehind
            exact ih hmeasured hbehind
    · rw [show levenshtein (toAsciiLowercase key) (toAsciiLowercase candidate) =
        far key candidate from rfl, if_neg hnear]
      exact hskip (fun heligible => hnear heligible.2) _ hmeasured

/-- **The suggestion** is the first candidate that is, up to ASCII case, the only one at the least
distance. -/
theorem bestSuggestion_eq (key : Str) (candidates : List Str) :
    bestSuggestion key candidates = candidates.find? fun candidate =>
      decide (Closest key candidates candidate) := by
  have hlength : (DistanceWorkspace.new key).query.length = key.length := List.length_map _
  unfold bestSuggestion
  rw [hlength, scan_eq rfl (@Summary.nothing key [] fun _ h => absurd h List.not_mem_nil),
    List.nil_append]

end Suggestion

/-! ## Localisation keys -/

structure LocalisationKeyIndex where
  blob : Str
  offsets : List Nat
  lengthOrder : List (Nat × Nat)

namespace LocalisationKeyIndex

/-- One of the names that differ in ASCII case only. -/
def dedupNames (names : List Str) : List Str := names.destutter fun left right =>
    eqIgnoreAsciiCase right left = false

/-- One round of the loop. -/
def push (index : LocalisationKeyIndex) (name : Str) : LocalisationKeyIndex where
  blob := index.blob ++ name
  offsets := index.offsets ++ [byteLen index.blob]
  lengthOrder := index.lengthOrder ++ [(name.length, index.lengthOrder.length)]

def sortedNames (names : List Str) : List Str :=
  dedupNames (sortByKey (fun name => toLex (toAsciiLowercase name, name)) names)

def new (names : List Str) : LocalisationKeyIndex :=
  let built := (sortedNames names).foldl push ⟨[], [], []⟩
  { built with
    offsets := built.offsets ++ [byteLen built.blob]
    lengthOrder := sortByKey toLex built.lengthOrder }

def key (index : LocalisationKeyIndex) (place : Nat) : Option Str := do
  getText index.blob (← index.offsets[place]?) (← index.offsets[place + 1]?)

/-- The order by lengths ascends, so `partition_point` is the length of the prefix that satisfies
its test. -/
def candidates (index : LocalisationKeyIndex) (name : Str) (max : Nat) : Option (List Str) :=
  let first := (index.lengthOrder.takeWhile fun entry =>
    decide (entry.1 < name.length - max)).length
  let last := (index.lengthOrder.takeWhile fun entry => decide (entry.1 ≤ name.length + max)).length
  ((index.lengthOrder.take last).drop first).mapM fun entry => index.key entry.2

end LocalisationKeyIndex

section Index

open LocalisationKeyIndex

variable {names : List Str} {name : Str}

theorem dedupNames_sublist (names : List Str) : (dedupNames names).Sublist names :=
  List.destutter_sublist _ names

/-- The names that are left have different spellings without ASCII case. -/
theorem pairwise_dedupNames
    (h : names.Pairwise fun a b => toAsciiLowercase a ≤ toAsciiLowercase b) :
    (dedupNames names).Pairwise fun a b => toAsciiLowercase a ≠ toAsciiLowercase b := by
  have hle := (h.sublist (dedupNames_sublist names)).isChain
  have hne := List.isChain_destutter (fun left right => eqIgnoreAsciiCase right left = false) names
  have hlt : (dedupNames names).IsChain fun a b => toAsciiLowercase a < toAsciiLowercase b := by
    rw [List.isChain_iff_getElem] at hle hne ⊢
    intro i hi
    exact lt_of_le_of_ne (hle i hi) fun heq => eqIgnoreAsciiCase_eq_false.mp (hne i hi) heq.symm
  have hsorted : ((dedupNames names).map toAsciiLowercase).Pairwise (· < ·) :=
    List.isChain_iff_pairwise.mp ((List.isChain_map _).mpr hlt)
  exact (List.pairwise_map.mp hsorted).imp ne_of_lt

theorem exists_mem_dedupFrom (names : List Str) : ∀ kept : Str, name ∈ kept :: names →
    ∃ left ∈ names.destutter' (fun left right => eqIgnoreAsciiCase right left = false) kept,
      toAsciiLowercase left = toAsciiLowercase name := by
  induction names with
  | nil =>
    intro kept h
    rw [List.mem_singleton.mp h]
    exact ⟨kept, List.mem_cons_self, rfl⟩
  | cons next rest ih =>
    intro kept h
    by_cases hnext : eqIgnoreAsciiCase next kept = false
    · rw [List.destutter'_cons_pos rest hnext]
      rcases List.mem_cons.mp h with rfl | h
      · exact ⟨name, List.mem_cons_self, rfl⟩
      · obtain ⟨left, hleft, hname⟩ := ih next h
        exact ⟨left, List.mem_cons_of_mem _ hleft, hname⟩
    · rw [List.destutter'_cons_neg rest hnext]
      have hfolded : toAsciiLowercase next = toAsciiLowercase kept := by
        by_contra hne
        exact hnext (eqIgnoreAsciiCase_eq_false.mpr hne)
      rcases List.mem_cons.mp h with rfl | h
      · exact ih name List.mem_cons_self
      rcases List.mem_cons.mp h with rfl | h
      · exact ⟨kept, List.mem_destutter' _ _ kept, hfolded.symm⟩
      · exact ih kept (List.mem_cons_of_mem _ h)

/-- Each name is left in some spelling. -/
theorem exists_mem_dedupNames (h : name ∈ names) :
    ∃ kept ∈ dedupNames names, toAsciiLowercase kept = toAsciiLowercase name := by
  cases names with
  | nil => cases h
  | cons first rest => exact exists_mem_dedupFrom rest first h

theorem mem_of_mem_sortedNames (h : name ∈ sortedNames names) : name ∈ names :=
  (perm_sortByKey _ names).mem_iff.mp ((dedupNames_sublist _).subset h)

theorem exists_mem_sortedNames (h : name ∈ names) :
    ∃ kept ∈ sortedNames names, toAsciiLowercase kept = toAsciiLowercase name :=
  exists_mem_dedupNames ((perm_sortByKey _ names).mem_iff.mpr h)

theorem foldl_push (keys : List Str) : keys.foldl push ⟨[], [], []⟩ =
    ⟨keys.flatten, (List.range keys.length).map fun i => byteLen (keys.take i).flatten,
      (List.range keys.length).map fun i => ((keys.getD i []).length, i)⟩ := by
  induction keys using List.reverseRecOn with
  | nil => rfl
  | append_singleton keys name ih =>
    have htake : ∀ i ∈ List.range keys.length, byteLen ((keys ++ [name]).take i).flatten =
      byteLen (keys.take i).flatten := by
      intro i hi
      rw [List.take_append_of_le_length (List.mem_range.mp hi).le]
    have hget : ∀ i ∈ List.range keys.length, (((keys ++ [name]).getD i []).length, i) =
      ((keys.getD i []).length, i) := by
      intro i hi
      rw [List.getD_append _ _ _ _ (List.mem_range.mp hi)]
    rw [List.foldl_append, ih, List.length_append, List.length_singleton, List.range_succ,
      List.map_append, List.map_append, List.map_congr_left htake, List.map_congr_left hget]
    simp [push]

/-- A place of the index is that of its name. -/
theorem key_new {place : Nat} (h : place < (sortedNames names).length) :
    (new names).key place = some ((sortedNames names).getD place []) := by
  have hoffsets : (new names).offsets =
      (List.range ((sortedNames names).length + 1)).map fun i =>
        byteLen ((sortedNames names).take i).flatten := by
    unfold new
    rw [foldl_push, List.range_succ, List.map_append, List.map_singleton, List.take_length]
  have hblob : (new names).blob = (sortedNames names).flatten := by
    unfold new
    rw [foldl_push]
  have hstart : (new names).offsets[place]? =
    some (byteLen ((sortedNames names).take place).flatten) := by
    rw [hoffsets, List.getElem?_map, List.getElem?_range (by omega), Option.map_some]
  have hstop : (new names).offsets[place + 1]? =
    some (byteLen ((sortedNames names).take (place + 1)).flatten) := by
    rw [hoffsets, List.getElem?_map, List.getElem?_range (by omega), Option.map_some]
  have hsplit : (sortedNames names).flatten = ((sortedNames names).take place).flatten ++
    (sortedNames names)[place] ++
      ((sortedNames names).drop (place + 1)).flatten := by
    rw [← @List.flatten_singleton _ (sortedNames names)[place], ← List.flatten_append,
      ← List.flatten_append, List.append_assoc, List.singleton_append,
      ← List.drop_eq_getElem_cons h, List.take_append_drop]
  unfold key
  rw [hstart, hstop, hblob, List.getD_eq_getElem _ _ h]
  refine getText_eq_some_iff.mpr ⟨_, _, hsplit, rfl, ?_⟩
  rw [List.take_succ_eq_append_getElem h, List.flatten_append, byteLen_append,
    List.flatten_singleton]

/-- The slice between two partition points. -/
theorem slice_eq {α : Type} (p q : α → Bool) (hpq : ∀ a, p a = true → q a = true) (xs : List α) :
    (xs.take (xs.takeWhile q).length).drop (xs.takeWhile p).length =
      (xs.takeWhile q).dropWhile p := by
  have hq : xs.take (xs.takeWhile q).length = xs.takeWhile q :=
    (List.prefix_iff_eq_take.mp (List.takeWhile_prefix q)).symm
  have hp : xs.takeWhile p = (xs.takeWhile q).takeWhile p := by
    rw [List.takeWhile_takeWhile]
    congr 1
    funext a
    simpa using hpq a
  rw [hq, hp]
  have hsplit := @List.takeWhile_append_dropWhile _ p (xs.takeWhile q)
  exact (congrArg (List.drop _) hsplit.symm).trans List.drop_left

theorem mapM_eq_some {α β : Type} {f : α → Option β} {g : α → β} {xs : List α}
    (h : ∀ x ∈ xs, f x = some (g x)) : xs.mapM f = some (xs.map g) := by
  induction xs with
  | nil => rfl
  | cons x xs ih =>
    rw [List.mapM_cons, h x List.mem_cons_self, ih fun y hy => h y (List.mem_cons_of_mem x hy)]
    rfl

/-- The candidates are the names whose lengths are near enough. -/
theorem mem_candidates (names : List Str) (name : Str) (max : Nat) : ∃ found,
    (new names).candidates name max = some found ∧
    ∀ key, key ∈ found ↔ key ∈ sortedNames names ∧ name.length ≤ key.length + max ∧
    key.length ≤ name.length + max := by
  generalize hkeys : sortedNames names = keys
  have horder : (new names).lengthOrder =
      sortByKey toLex ((List.range keys.length).map fun i => ((keys.getD i []).length, i)) := by
    unfold new
    rw [foldl_push, hkeys]
  have hsorted : (new names).lengthOrder.Pairwise fun a b => a.1 ≤ b.1 := by
    have hle : ∀ a b : Nat × Nat, toLex a ≤ toLex b → a.1 ≤ b.1 := fun a b h =>
      (Prod.Lex.toLex_le_toLex.mp h).elim le_of_lt fun h => h.1.le
    rw [horder]
    exact (pairwise_sortByKey toLex _).imp (hle _ _)
  have hentry : ∀ entry, entry ∈ (new names).lengthOrder ↔ ∃ i < keys.length,
    ((keys.getD i []).length, i) = entry := by
    intro entry
    rw [horder, (perm_sortByKey toLex _).mem_iff, List.mem_map]
    simp only [List.mem_range]
  have hslice : ∀ entry, entry ∈ ((new names).lengthOrder.takeWhile fun entry =>
    decide (entry.1 ≤ name.length + max)).dropWhile
      (fun entry => decide (entry.1 < name.length - max)) ↔
        entry ∈ (new names).lengthOrder ∧ name.length ≤ entry.1 + max ∧
        entry.1 ≤ name.length + max := by
    intro entry
    have htake := @StableSort.mem_takeWhile_iff _ _ _ Prod.fst (new names).lengthOrder
      (name.length + max + 1) entry hsorted
    have hdrop := @StableSort.mem_dropWhile_iff _ _ _ Prod.fst _ (name.length - max) entry
      (hsorted.sublist (List.takeWhile_sublist fun entry =>
        decide (entry.1 < name.length + max + 1)))
    simp only [Nat.lt_succ_iff] at htake hdrop
    rw [hdrop, htake]
    constructor
    · rintro ⟨⟨hmem, hhigh⟩, hlow⟩
      exact ⟨hmem, by omega, by omega⟩
    · rintro ⟨hmem, hlow, hhigh⟩
      exact ⟨⟨hmem, by omega⟩, by omega⟩
  unfold candidates
  dsimp only
  rw [slice_eq _ _ fun entry h => by simp only [decide_eq_true_eq] at h ⊢; omega]
  refine ⟨_, mapM_eq_some (g := fun entry => keys.getD entry.2 []) fun entry hmem => ?_,
    fun key => ?_⟩
  · obtain ⟨i, hi, rfl⟩ := (hentry entry).mp ((hslice entry).mp hmem).1
    rw [← hkeys] at hi ⊢
    exact key_new hi
  · rw [List.mem_map]
    constructor
    · rintro ⟨entry, hmem, rfl⟩
      obtain ⟨hmem, hlength⟩ := (hslice entry).mp hmem
      obtain ⟨i, hi, rfl⟩ := (hentry entry).mp hmem
      rw [List.getD_eq_getElem _ _ hi] at hlength ⊢
      exact ⟨List.getElem_mem hi, hlength⟩
    · rintro ⟨hmem, hlength⟩
      obtain ⟨i, hi, rfl⟩ := List.getElem_of_mem hmem
      refine ⟨(keys[i].length, i), (hslice _).mpr ⟨(hentry _).mpr ⟨i, hi, ?_⟩, hlength⟩,
        List.getD_eq_getElem _ _ hi⟩
      rw [List.getD_eq_getElem _ _ hi]

end Index

/-- The names of a workspace, as `effective_workspace_member_names_uncached` leaves them. -/
def memberNames (names : List Str) : List Str := LocalisationKeyIndex.dedupNames
    (sortByKey toAsciiLowercase names)

section Restricted

variable {key : Str} {all narrowed : List Str} {left right : Str}

theorem eligible_congr (h : toAsciiLowercase left = toAsciiLowercase right) : Eligible key left ↔
    Eligible key right := by
  have hlength : left.length = right.length := by
    simpa [toAsciiLowercase] using congrArg List.length h
  unfold Eligible far
  rw [h, hlength]

theorem far_congr (h : toAsciiLowercase left = toAsciiLowercase right) :
    far key left = far key right := by
  unfold far
  rw [h]

theorem Closest.congr (h : Closest key all left)
    (hname : toAsciiLowercase right = toAsciiLowercase left)
    (hall : ∀ other ∈ narrowed, Eligible key other → ∃ same ∈ all,
      toAsciiLowercase same = toAsciiLowercase other) :
    Closest key narrowed right := by
  refine ⟨(eligible_congr hname).mpr h.1, fun other hother heligible => ?_⟩
  obtain ⟨same, hsame, hsamename⟩ := hall other hother heligible
  obtain ⟨hle, htie⟩ := h.2 same hsame ((eligible_congr hsamename).mpr heligible)
  rw [far_congr hname, ← far_congr hsamename, hname, ← hsamename]
  exact ⟨hle, htie⟩

theorem map_bestSuggestion_eq_some {text : Str} : (bestSuggestion key all).map toAsciiLowercase =
    some text ↔
    ∃ candidate ∈ all, Closest key all candidate ∧ toAsciiLowercase candidate = text := by
  rw [bestSuggestion_eq, Option.map_eq_some_iff]
  constructor
  · rintro ⟨candidate, hfound, hname⟩
    have hclosest := List.find?_some hfound
    exact ⟨candidate, List.mem_of_find?_eq_some hfound, of_decide_eq_true hclosest, hname⟩
  · rintro ⟨candidate, hmem, hclosest, hname⟩
    have hsome : (all.find? fun candidate => decide (Closest key all candidate)).isSome = true :=
      List.find?_isSome.mpr ⟨candidate, hmem, decide_eq_true hclosest⟩
    obtain ⟨found, hfound⟩ := Option.isSome_iff_exists.mp hsome
    have hfoundmem := List.mem_of_find?_eq_some hfound
    have hdecided := List.find?_some hfound
    have hfoundclosest : Closest key all found := of_decide_eq_true hdecided
    -- both are at the least distance
    have hle := (hclosest.2 found hfoundmem hfoundclosest.1).1
    have hle' := (hfoundclosest.2 candidate hmem hclosest.1).1
    exact ⟨found, hfound, ((hclosest.2 found hfoundmem hfoundclosest.1).2
      (le_antisymm hle' hle)).trans hname⟩

/-- Candidates that are not eligible, and other spellings, do not matter. -/
theorem map_bestSuggestion_congr
    (hall : ∀ name ∈ all, Eligible key name → ∃ same ∈ narrowed,
      toAsciiLowercase same = toAsciiLowercase name)
    (hsome : ∀ name ∈ narrowed, ∃ same ∈ all, toAsciiLowercase same = toAsciiLowercase name) :
    (bestSuggestion key narrowed).map toAsciiLowercase = (bestSuggestion key all).map
      toAsciiLowercase := by
  ext text
  rw [map_bestSuggestion_eq_some, map_bestSuggestion_eq_some]
  constructor
  · rintro ⟨candidate, hmem, hclosest, rfl⟩
    obtain ⟨same, hsame, hname⟩ := hsome candidate hmem
    exact ⟨same, hsame, hclosest.congr hname hall, hname⟩
  · rintro ⟨candidate, hmem, hclosest, rfl⟩
    obtain ⟨same, hsame, hname⟩ := hall candidate hmem hclosest.1
    exact ⟨same, hsame, hclosest.congr hname fun other hother _ => hsome other hother, hname⟩

theorem mem_of_bestSuggestion (h : bestSuggestion key all = some left) : left ∈ all := by
  rw [bestSuggestion_eq] at h
  exact List.mem_of_find?_eq_some h

/-- A name that may be suggested is a candidate of the index. -/
theorem index_candidates (key : Str) (names : List Str) :
    ∃ found, (LocalisationKeyIndex.new names).candidates key maxDistance = some found ∧
      (∀ name ∈ found, name ∈ names) ∧
      (bestSuggestion key found).map toAsciiLowercase = (bestSuggestion key names).map
        toAsciiLowercase := by
  obtain ⟨found, hfound, hmem⟩ := mem_candidates names key maxDistance
  have hsub : ∀ name ∈ found, name ∈ names := fun name hname =>
    mem_of_mem_sortedNames ((hmem name).mp hname).1
  refine ⟨found, hfound, hsub, map_bestSuggestion_congr (fun name hname heligible => ?_)
    fun name hname => ⟨name, hsub name hname, rfl⟩⟩
  obtain ⟨kept, hkept, hfolded⟩ := exists_mem_sortedNames hname
  have hnear := ((eligible_congr hfolded).mpr heligible).2
  have hlength := length_le_levenshtein (toAsciiLowercase key) (toAsciiLowercase kept)
  have hlower : ∀ text : Str, (toAsciiLowercase text).length = text.length :=
    fun text => List.length_map _
  rw [hlower, hlower] at hlength
  unfold far at hnear
  exact ⟨kept, (hmem kept).mpr ⟨hkept, by omega, by omega⟩, hfolded⟩

/-- **Suggestions are exact**: a reused workspace measures the distance of each candidate where it
is within the bound, the suggestion is the first candidate that is, up to ASCII case, the only one
at the least distance, and the index of localisation keys leaves the suggestion as it is, up to
ASCII case for any names and literally for those of a workspace. -/
theorem suggestions_exact :
    (∀ (workspace : DistanceWorkspace) (candidates : List (Str × Nat)),
      workspace.distances candidates = candidates.map fun (candidate, bound) =>
        if levenshtein workspace.query (toAsciiLowercase candidate) ≤ bound then
          some (levenshtein workspace.query (toAsciiLowercase candidate))
        else none) ∧
    (∀ (key : Str) (candidates : List Str), bestSuggestion key candidates =
      candidates.find? fun candidate => decide (Closest key candidates candidate)) ∧
    (∀ (key : Str) (names : List Str), ∃ found,
      (LocalisationKeyIndex.new names).candidates key maxDistance = some found ∧
        (bestSuggestion key found).map toAsciiLowercase =
          (bestSuggestion key names).map toAsciiLowercase) ∧
    ∀ (key : Str) (names : List Str), ∃ found,
      (LocalisationKeyIndex.new (memberNames names)).candidates key maxDistance = some found ∧
        bestSuggestion key found = bestSuggestion key (memberNames names) := by
  refine ⟨distances_eq, bestSuggestion_eq, fun key names => ?_, fun key names => ?_⟩
  · obtain ⟨found, hfound, -, hsame⟩ := index_candidates key names
    exact ⟨found, hfound, hsame⟩
  · obtain ⟨found, hfound, hsub, hsame⟩ := index_candidates key (memberNames names)
    refine ⟨found, hfound, ?_⟩
    have hdistinct : (memberNames names).Pairwise fun a b =>
      toAsciiLowercase a ≠ toAsciiLowercase b :=
      pairwise_dedupNames (pairwise_sortByKey toAsciiLowercase names)
    cases hbest : bestSuggestion key found with
    | none =>
      rw [hbest, Option.map_none, eq_comm, Option.map_eq_none_iff] at hsame
      exact hsame.symm
    | some suggestion =>
      rw [hbest, Option.map_some, eq_comm, Option.map_eq_some_iff] at hsame
      obtain ⟨other, hother, hname⟩ := hsame
      rw [hother]
      have hmem := hsub suggestion (mem_of_bestSuggestion hbest)
      have hmem' := mem_of_bestSuggestion hother
      have hnodup : ((memberNames names).map toAsciiLowercase).Nodup :=
        List.pairwise_map.mpr hdistinct
      rw [List.inj_on_of_nodup_map hnodup hmem' hmem hname]

end Restricted

end ParadoxCode.Ide.Suggest
