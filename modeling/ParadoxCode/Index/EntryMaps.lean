import Mathlib.Data.Prod.Lex
import Mathlib.Data.Set.Card
import ParadoxCode.Index.FileState
import ParadoxCode.Lib.Loops
import ParadoxCode.Lib.SortedEntries

/-!
# The maps of positions and previews

`PositionMap` and `LocalisationPreviewMap` of `index.rs` keep a sorted vector for each file and
count the entries apart from them. The vectors are shared and copied when they are written, which is
not seen from outside. The entries are in memory, so that their number is a `usize`.
-/

namespace ParadoxCode.Index

open NatMap SortedEntries

/-! ## Tables by file -/

section

variable {β γ σ : Type}

/-- A loop over a table whose rounds change one key each. -/
theorem look_foldl_toList (look : σ → Nat → Option β) (combine : Option β → γ → Option β)
    {step : σ → Nat × γ → σ}
    (hstep : ∀ state key c a, look (step state (key, c)) a = if key = a then
      combine (look state key) c else look state a)
    (table : Std.ExtTreeMap Nat γ) (state : σ) (a : Nat) :
    look (table.toList.foldl step state) a = table[a]?.elim (look state a)
      (combine (look state a)) := by
  have hloop : ∀ (rows : List (Nat × γ)) (state : σ), (rows.map Prod.fst).Nodup →
      look (rows.foldl step state) a =
        (rows.find? fun row => row.1 = a).elim (look state a) fun row =>
          combine (look state a) row.2 := by
    intro rows
    induction rows with
    | nil => exact fun _ _ => rfl
    | cons row rows ih =>
      intro state hnodup
      rw [List.map_cons, List.nodup_cons] at hnodup
      rw [List.foldl_cons, ih _ hnodup.2, hstep, List.find?_cons]
      by_cases hrow : row.1 = a
      · have hnone : (rows.find? fun row => row.1 = a) = none := by
          rw [List.find?_eq_none]
          intro other hother
          rw [decide_eq_true_eq]
          exact fun heq => hnodup.1 (List.mem_map.mpr ⟨other, hother, heq.trans hrow.symm⟩)
        rw [hnone, if_pos hrow, decide_eq_true hrow, hrow]
        rfl
      · rw [if_neg hrow, decide_eq_false hrow]
  rw [hloop _ _ (nodup_keys table)]
  cases htable : table[a]? with
  | none =>
    have hnone : (table.toList.find? fun row => row.1 = a) = none := by
      rw [List.find?_eq_none]
      intro row hrow
      rw [decide_eq_true_eq]
      intro heq
      have := Std.ExtTreeMap.mem_toList_iff_getElem?_eq_some.mp hrow
      rw [heq, htable] at this
      cases this
    rw [hnone]
    rfl
  | some c =>
    cases hfind : table.toList.find? fun row => row.1 = a with
    | none =>
      have := List.find?_eq_none.mp hfind (a, c)
        (Std.ExtTreeMap.mem_toList_iff_getElem?_eq_some.mpr htable)
      simp at this
    | some row =>
      have hrow := Std.ExtTreeMap.mem_toList_iff_getElem?_eq_some.mp
        (List.mem_of_find?_eq_some hfind)
      have hkey := List.find?_some hfind
      rw [decide_eq_true_eq] at hkey
      rw [hkey, htable] at hrow
      rw [Option.some.inj hrow]
      rfl

/-- The rows of a table with one more key. -/
theorem perm_toList_insert {table : Std.ExtTreeMap Nat β} {key : Nat}
    (h : table[key]? = none) (b : β) :
    (table.insert key b).toList.Perm ((key, b) :: table.toList) := by
  have hnew : (key, b) ∉ table.toList := fun hmem => by
    rw [Std.ExtTreeMap.mem_toList_iff_getElem?_eq_some, h] at hmem
    cases hmem
  refine (List.perm_ext_iff_of_nodup (nodup_keys _).of_map
    ((nodup_keys table).of_map.cons hnew)).mpr ?_
  rintro ⟨a, c⟩
  rw [Std.ExtTreeMap.mem_toList_iff_getElem?_eq_some, getElem?_insert, List.mem_cons,
    Std.ExtTreeMap.mem_toList_iff_getElem?_eq_some, Prod.mk.injEq]
  split_ifs with hkey
  · subst hkey
    simp [h, eq_comm]
  · simp [Ne.symm hkey]

theorem getElem?_erase (table : Std.ExtTreeMap Nat β) (key a : Nat) :
    (table.erase key)[a]? = if key = a then none else table[a]? := by
  rw [Std.ExtTreeMap.getElem?_erase]
  simp only [Nat.compare_eq_eq]

end

/-! ## The maps -/

/-- The order of ranges: by their starts and then by their ends. -/
def rangeKey (range : TextRange) : ℕ ×ₗ ℕ := toLex (range.start, range.stop)

theorem rangeKey_inj {a b : TextRange} : rangeKey a = rangeKey b ↔ a = b := by
  refine ⟨fun h => ?_, fun h => h ▸ rfl⟩
  cases a
  cases b
  simpa [rangeKey] using h

def entryKey {α : Type} (entry : TextRange × α) : ℕ ×ₗ ℕ := rangeKey entry.1

/-- The entries of each file in a vector, and how many there are. -/
structure EntryMap (α : Type) where
  byFile : Std.ExtTreeMap Nat (List (TextRange × α)) := ∅
  len : Nat := 0

abbrev PositionMap : Type := EntryMap PositionRange

abbrev LocalisationPreviewMap : Type := EntryMap LocalisationPreview

/-- `sort_position_entries`, `sort_preview_entries`. -/
def sortMapEntries {α : Type} (entries : List (TextRange × α)) : List (TextRange × α) :=
  sortedEntries entryKey entries

namespace EntryMap

variable {α : Type}

/-- `get`. -/
def get (map : EntryMap α) (key : Nat × TextRange) : Option α := do
  let entries ← map.byFile[key.1]?
  let index ← binarySearch entryKey entries (rangeKey key.2)
  (entries[index]?).map Prod.snd

/-- `iter`: the files in order, and the entries of each of them. -/
def iter (map : EntryMap α) : List ((Nat × TextRange) × α) :=
  map.byFile.toList.flatMap fun (fileId, entries) => entries.map fun (range, value) =>
    ((fileId, range), value)

/-- `recount_len`. -/
def recountLen (map : EntryMap α) : EntryMap α :=
  { map with len := (map.byFile.toList.map fun (_, entries) => entries.length).sum }

/-- `remove_file`. -/
def removeFile (map : EntryMap α) (fileId : Nat) : EntryMap α :=
  match map.byFile[fileId]? with
  | some entries => ⟨map.byFile.erase fileId, map.len - entries.length⟩
  | none => map

/-- `replace_file`. -/
def replaceFile (map : EntryMap α) (fileId : Nat) (entries : List (TextRange × α)) : EntryMap α :=
  let map := map.removeFile fileId
  let entries := sortMapEntries entries
  if entries.isEmpty then map else ⟨map.byFile.insert fileId entries, map.len + entries.length⟩

/-- `retain_files`. -/
def retainFiles (map : EntryMap α) (keep : Nat → Bool) : EntryMap α :=
  let removed := (map.byFile.toList.map Prod.fst).filter fun fileId => !keep fileId
  removed.foldl removeFile map

/-- The entries by file, as `extend` and `from_entries` collect them. -/
def group (entries : List ((Nat × TextRange) × α)) : Std.ExtTreeMap Nat (List (TextRange × α)) :=
  entries.foldl (fun grouped entry => grouped.alter entry.1.1 fun found =>
    some (found.getD [] ++ [(entry.1.2, entry.2)])) ∅

/-- One file of `from_grouped`. -/
def addFile (map : EntryMap α) (file : Nat × List (TextRange × α)) : EntryMap α :=
  let entries := sortMapEntries file.2
  let len := map.len + entries.length
  ⟨if entries.isEmpty then map.byFile else map.byFile.insert file.1 entries, len⟩

/-- `from_grouped`. -/
def fromGrouped (grouped : Std.ExtTreeMap Nat (List (TextRange × α))) : EntryMap α :=
  grouped.toList.foldl addFile {}

/-- `from_entries`. -/
def fromEntries (entries : List ((Nat × TextRange) × α)) : EntryMap α := fromGrouped (group entries)

end EntryMap

namespace PositionMap

/-- One file of `merge`. -/
def mergeFile (map : PositionMap) (file : Nat × List (TextRange × PositionRange)) : PositionMap :=
  match map.byFile[file.1]? with
  | some previous =>
    { map with
      byFile := (map.byFile.erase file.1).insert file.1 (sortMapEntries (previous ++ file.2)) }
  | none => { map with byFile := map.byFile.insert file.1 file.2 }

/-- `merge`. -/
def merge (map other : PositionMap) : PositionMap :=
  (other.byFile.toList.foldl mergeFile map).recountLen

/-- One file of `merge_grouped`. -/
def mergeGroup (map : PositionMap) (file : Nat × List (TextRange × PositionRange)) : PositionMap :=
  let merged := (map.byFile[file.1]?).getD []
  { map with byFile := (map.byFile.erase file.1).insert file.1 (sortMapEntries (merged ++ file.2)) }

/-- `merge_grouped`. -/
def mergeGrouped (map : PositionMap)
    (grouped : Std.ExtTreeMap Nat (List (TextRange × PositionRange))) : PositionMap :=
  (grouped.toList.foldl mergeGroup map).recountLen

/-- `extend`. -/
def extend (map : PositionMap) (entries : List ((Nat × TextRange) × PositionRange)) : PositionMap :=
  mergeGrouped map (EntryMap.group entries)

end PositionMap

namespace LocalisationPreviewMap

/-- `replace_file_shared`. The handle is in range order, which a debug build asserts. -/
def replaceFileShared (map : LocalisationPreviewMap) (fileId : Nat)
    (entries : Option (List (TextRange × LocalisationPreview))) : LocalisationPreviewMap :=
  let map := map.removeFile fileId
  match entries.filter fun entries => !entries.isEmpty with
  | none => map
  | some entries => ⟨map.byFile.insert fileId entries, map.len + entries.length⟩

/-- One file of `merge_shared`. -/
def mergeFile (map : LocalisationPreviewMap) (file : Nat × List (TextRange × LocalisationPreview)) :
    LocalisationPreviewMap :=
  match map.byFile[file.1]? with
  | some existing =>
    let merged := sortMapEntries (existing ++ file.2)
    ⟨(map.byFile.erase file.1).insert file.1 merged, map.len + merged.length⟩
  | none => ⟨map.byFile.insert file.1 file.2, map.len + file.2.length⟩

/-- `merge_shared`. -/
def mergeShared (map : LocalisationPreviewMap)
    (additions : Std.ExtTreeMap Nat (List (TextRange × LocalisationPreview))) :
    LocalisationPreviewMap :=
  (additions.toList.foldl mergeFile map).recountLen

/-- `merge`. -/
def merge (map other : LocalisationPreviewMap) : LocalisationPreviewMap :=
  mergeShared map other.byFile

/-- `merge_grouped`. -/
def mergeGrouped (map : LocalisationPreviewMap)
    (grouped : Std.ExtTreeMap Nat (List (TextRange × LocalisationPreview))) :
    LocalisationPreviewMap :=
  mergeShared map (grouped.filterMap fun _ entries =>
    if entries.isEmpty then none else some (sortMapEntries entries))

/-- `extend`. -/
def extend (map : LocalisationPreviewMap)
    (entries : List ((Nat × TextRange) × LocalisationPreview)) : LocalisationPreviewMap :=
  mergeGrouped map (EntryMap.group entries)

end LocalisationPreviewMap

/-! ## The invariant -/

namespace EntryMap

variable {α : Type}

/-- The number of entries in the vectors. -/
def total (byFile : Std.ExtTreeMap Nat (List (TextRange × α))) : Nat :=
  (byFile.toList.map fun (_, entries) => entries.length).sum

theorem total_insert {byFile : Std.ExtTreeMap Nat (List (TextRange × α))} {fileId : Nat}
    (h : byFile[fileId]? = none) (entries : List (TextRange × α)) :
    total (byFile.insert fileId entries) = entries.length + total byFile := by
  unfold total
  rw [((perm_toList_insert h entries).map _).sum_eq]
  rfl

theorem total_erase {byFile : Std.ExtTreeMap Nat (List (TextRange × α))} {fileId : Nat}
    {entries : List (TextRange × α)} (h : byFile[fileId]? = some entries) :
    total byFile = entries.length + total (byFile.erase fileId) := by
  have hback : (byFile.erase fileId).insert fileId entries = byFile := by
    apply Std.ExtTreeMap.ext_getElem?
    intro a
    rw [getElem?_insert, getElem?_erase]
    split_ifs with hkey
    · rw [← hkey, h]
    · rfl
  have hnone : (byFile.erase fileId)[fileId]? = none := by rw [getElem?_erase, if_pos rfl]
  conv_lhs => rw [← hback]
  exact total_insert hnone entries

/-- The vectors are in order and not empty, and the count is theirs. -/
structure WellFormed (map : EntryMap α) : Prop where
  ascending : ∀ {fileId : Nat} {entries : List (TextRange × α)},
    map.byFile[fileId]? = some entries → Ascending entryKey entries
  nonempty : ∀ fileId : Nat, map.byFile[fileId]? ≠ some []
  len : map.len = total map.byFile

/-- What the vector of a file has for a range. -/
def found (entries : Option (List (TextRange × α))) (range : TextRange) : Option α :=
  (entries.bind fun entries => entries.find? fun entry => entryKey entry = rangeKey range).map
    Prod.snd

@[simp] theorem found_none (range : TextRange) : found (none : Option (List (TextRange × α)))
    range = none := rfl

/-- The last value of a range. -/
def lastValue (entries : List (TextRange × α)) (range : TextRange) : Option α :=
  (lastOf entryKey entries (rangeKey range)).map Prod.snd

theorem lastValue_append (front back : List (TextRange × α)) (range : TextRange) :
    lastValue (front ++ back) range = (lastValue back range).or (lastValue front range) := by
  unfold lastValue
  rw [lastOf_append]
  cases lastOf entryKey back (rangeKey range) <;> rfl

theorem found_sortMapEntries (entries : List (TextRange × α)) (range : TextRange) :
    found (some (sortMapEntries entries)) range = lastValue entries range := by
  unfold found lastValue sortMapEntries
  rw [Option.bind_some, find?_sortedEntries]

theorem lastValue_of_ascending {entries : List (TextRange × α)} (h : Ascending entryKey entries)
    (range : TextRange) : lastValue entries range = found (some entries) range := by
  unfold found lastValue
  rw [Option.bind_some, lastOf_of_ascending h]

variable {map : EntryMap α}

theorem WellFormed.get_eq (h : map.WellFormed) (fileId : Nat) (range : TextRange) :
    map.get (fileId, range) = found map.byFile[fileId]? range := by
  unfold get found
  cases hentries : map.byFile[fileId]? with
  | none => rfl
  | some entries =>
    have hsearch := binarySearch_bind (h.ascending hentries) (rangeKey range)
    rw [Option.bind_some, ← hsearch]
    cases hindex : binarySearch entryKey entries (rangeKey range) with
    | none => simp [hindex]
    | some index => simp [hindex]

theorem wellFormed_recountLen
    (hascending : ∀ {fileId : Nat} {entries : List (TextRange × α)},
      map.byFile[fileId]? = some entries → Ascending entryKey entries)
    (hnonempty : ∀ fileId : Nat, map.byFile[fileId]? ≠ some []) : map.recountLen.WellFormed :=
  ⟨hascending, hnonempty, rfl⟩

theorem wellFormed_new : ({} : EntryMap α).WellFormed where
  ascending h := by
    rw [Std.ExtTreeMap.getElem?_empty] at h
    cases h
  nonempty fileId h := by
    rw [Std.ExtTreeMap.getElem?_empty] at h
    cases h
  len := rfl

theorem byFile_removeFile (map : EntryMap α) (fileId a : Nat) :
    (map.removeFile fileId).byFile[a]? = if fileId = a then none else map.byFile[a]? := by
  unfold removeFile
  cases hentries : map.byFile[fileId]? with
  | none =>
    dsimp only
    split_ifs with hkey
    · rw [← hkey, hentries]
    · rfl
  | some entries => exact getElem?_erase map.byFile fileId a

theorem WellFormed.removeFile (h : map.WellFormed) (fileId : Nat) :
    (map.removeFile fileId).WellFormed where
  ascending hentries := by
    rw [byFile_removeFile] at hentries
    split_ifs at hentries
    exact h.ascending hentries
  nonempty a := by
    rw [byFile_removeFile]
    split_ifs
    · exact fun h => nomatch h
    · exact h.nonempty a
  len := by
    unfold EntryMap.removeFile
    cases hentries : map.byFile[fileId]? with
    | none => exact h.len
    | some entries =>
      dsimp only
      rw [h.len, total_erase hentries, Nat.add_sub_cancel_left]

/-- A vector is put in place of none. -/
theorem WellFormed.insert (h : map.WellFormed) {fileId : Nat} (hnone : map.byFile[fileId]? = none)
    {entries : List (TextRange × α)} (hne : entries ≠ [])
    (hascending : Ascending entryKey entries) :
    (⟨map.byFile.insert fileId entries, map.len + entries.length⟩ : EntryMap α).WellFormed where
  ascending hentries := by
    rw [getElem?_insert] at hentries
    split_ifs at hentries
    · exact Option.some.inj hentries ▸ hascending
    · exact h.ascending hentries
  nonempty a := by
    rw [getElem?_insert]
    split_ifs
    · exact fun heq => hne (Option.some.inj heq)
    · exact h.nonempty a
  len := by rw [total_insert hnone, h.len, Nat.add_comm]

theorem byFile_replaceFile (map : EntryMap α) (fileId : Nat)
    (entries : List (TextRange × α)) (a : Nat) :
    (map.replaceFile fileId entries).byFile[a]? =
      if fileId = a then if entries = [] then none else some (sortMapEntries entries) else
        map.byFile[a]? := by
  have hnil : (sortMapEntries entries).isEmpty = true ↔ entries = [] :=
    List.isEmpty_iff.trans sortedEntries_eq_nil_iff
  unfold replaceFile
  dsimp only
  by_cases hentries : entries = []
  · rw [if_pos (hnil.mpr hentries), if_pos hentries, byFile_removeFile]
  · rw [if_neg (hnil.not.mpr hentries), if_neg hentries, getElem?_insert, byFile_removeFile]
    split_ifs <;> rfl

theorem WellFormed.replaceFile (h : map.WellFormed) (fileId : Nat)
    (entries : List (TextRange × α)) : (map.replaceFile fileId entries).WellFormed := by
  unfold EntryMap.replaceFile
  dsimp only
  split_ifs with hempty
  · exact h.removeFile fileId
  · refine (h.removeFile fileId).insert ?_ (fun hnil => hempty (List.isEmpty_iff.mpr hnil))
      (ascending_sortedEntries entries)
    rw [byFile_removeFile, if_pos rfl]

theorem retainFiles_spec (h : map.WellFormed) (keep : Nat → Bool) :
    (map.retainFiles keep).WellFormed ∧
    ∀ a : Nat, (map.retainFiles keep).byFile[a]? = if keep a = true then
      map.byFile[a]? else none := by
  have hloop : ∀ (removed : List Nat) {map : EntryMap α}, map.WellFormed →
      (removed.foldl EntryMap.removeFile map).WellFormed ∧
        ∀ a : Nat, (removed.foldl EntryMap.removeFile map).byFile[a]? =
          if a ∈ removed then none else map.byFile[a]? := by
    intro removed
    induction removed with
    | nil => exact fun h => ⟨h, fun a => (if_neg List.not_mem_nil).symm⟩
    | cons fileId removed ih =>
      intro map h
      obtain ⟨hwell, hbyFile⟩ := ih (h.removeFile fileId)
      refine ⟨hwell, fun a => ?_⟩
      rw [List.foldl_cons, hbyFile, byFile_removeFile]
      by_cases ha : fileId = a
      · simp [ha]
      · simp [ha, Ne.symm ha]
  obtain ⟨hwell, hbyFile⟩ := hloop ((map.byFile.toList.map Prod.fst).filter fun fileId =>
    !keep fileId) h
  refine ⟨hwell, fun a => ?_⟩
  unfold retainFiles
  rw [hbyFile]
  by_cases hkeep : keep a = true
  · rw [if_pos hkeep, if_neg]
    rw [List.mem_filter]
    simp [hkeep]
  · rw [if_neg hkeep, ite_eq_left_iff]
    -- a file that is not removed has no entries
    intro hmem
    cases hentries : map.byFile[a]? with
    | none => rfl
    | some entries =>
      refine absurd (List.mem_filter.mpr ⟨List.mem_map.mpr ⟨(a, entries), ?_, rfl⟩, ?_⟩) hmem
      · exact Std.ExtTreeMap.mem_toList_iff_getElem?_eq_some.mpr hentries
      · simp [hkeep]

theorem byFile_addFile (map : EntryMap α) (file : Nat × List (TextRange × α)) (a : Nat) :
    (map.addFile file).byFile[a]? =
      if file.1 = a then (if file.2 = [] then map.byFile[file.1]? else some (sortMapEntries file.2))
      else map.byFile[a]? := by
  have hnil : (sortMapEntries file.2).isEmpty = true ↔ file.2 = [] :=
    List.isEmpty_iff.trans sortedEntries_eq_nil_iff
  unfold addFile
  dsimp only
  by_cases hentries : file.2 = []
  · rw [if_pos (hnil.mpr hentries), if_pos hentries, ite_eq_right_iff.mpr fun heq => by rw [heq]]
  · rw [if_neg (hnil.not.mpr hentries), if_neg hentries, getElem?_insert]

theorem fromGrouped_spec (grouped : Std.ExtTreeMap Nat (List (TextRange × α))) :
    (fromGrouped grouped).WellFormed ∧ ∀ (a : Nat) (range : TextRange),
      found (fromGrouped grouped).byFile[a]? range = lastValue (grouped[a]?.getD []) range := by
  have hloop : ∀ (files : List (Nat × List (TextRange × α))) {map : EntryMap α}, map.WellFormed →
      (files.map Prod.fst).Nodup → (∀ file ∈ files, map.byFile[file.1]? = none) →
        (files.foldl addFile map).WellFormed := by
    intro files
    induction files with
    | nil => exact fun h _ _ => h
    | cons file files ih =>
      intro map h hnodup hnew
      rw [List.map_cons, List.nodup_cons] at hnodup
      refine ih ?_ hnodup.2 fun other hother => ?_
      · unfold addFile
        dsimp only
        split_ifs with hempty
        · rw [List.isEmpty_iff.mp hempty]
          exact h
        · exact h.insert (hnew file List.mem_cons_self)
            (fun hnil => hempty (List.isEmpty_iff.mpr hnil)) (ascending_sortedEntries _)
      · have hne : file.1 ≠ other.1 := fun heq => hnodup.1 (heq ▸ List.mem_map_of_mem hother)
        rw [byFile_addFile, if_neg hne]
        exact hnew other (List.mem_cons_of_mem file hother)
  refine ⟨hloop _ wellFormed_new (nodup_keys grouped) fun _ _ => Std.ExtTreeMap.getElem?_empty,
    fun a range => ?_⟩
  have hlook := look_foldl_toList (fun (map : EntryMap α) (a : Nat) => map.byFile[a]?)
    (fun known entries => if entries = [] then known else some (sortMapEntries entries))
    (fun map fileId entries a => byFile_addFile map (fileId, entries) a) grouped {} a
  unfold fromGrouped
  rw [hlook]
  have hnone : ({} : EntryMap α).byFile[a]? = none := Std.ExtTreeMap.getElem?_empty
  cases grouped[a]? with
  | none => rw [hnone]; rfl
  | some entries =>
    rw [hnone, Option.elim_some, Option.getD_some]
    split_ifs with hnil
    · rw [hnil]
      rfl
    · exact found_sortMapEntries entries range

/-- The entries of one file in a list. -/
def entriesFor (fileId : Nat) (entries : List ((Nat × TextRange) × α)) : List (TextRange × α) :=
  entries.filterMap fun entry => if entry.1.1 = fileId then some (entry.1.2, entry.2) else none

theorem entriesFor_append (fileId : Nat) (front back : List ((Nat × TextRange) × α)) :
    entriesFor fileId (front ++ back) = entriesFor fileId front ++ entriesFor fileId back :=
  List.filterMap_append

theorem entriesFor_singleton (fileId : Nat) (entry : (Nat × TextRange) × α) :
    entriesFor fileId [entry] = if entry.1.1 = fileId then [(entry.1.2, entry.2)] else [] := by
  unfold entriesFor
  by_cases hfile : entry.1.1 = fileId <;> simp [hfile]

theorem getElem?_group (entries : List ((Nat × TextRange) × α)) (a : Nat) :
    (group entries)[a]? = if entriesFor a entries = [] then none else
      some (entriesFor a entries) := by
  unfold group
  induction entries using List.reverseRecOn with
  | nil => exact Std.ExtTreeMap.getElem?_empty
  | append_singleton entries entry ih =>
    rw [List.foldl_append, List.foldl_cons, List.foldl_nil, NatMap.getElem?_alter]
    rw [entriesFor_append, entriesFor_singleton]
    by_cases hkey : entry.1.1 = a
    · subst hkey
      rw [if_pos rfl, if_pos rfl,
        if_neg (List.append_ne_nil_of_right_ne_nil _ (List.cons_ne_nil _ _)), ih]
      split_ifs with hnil
      · rw [hnil]
        rfl
      · rfl
    · rw [if_neg hkey, if_neg hkey, List.append_nil, ih]

end EntryMap

/-! ## What a map holds -/

/-- A map from files and ranges. -/
abbrev Contents (α : Type) : Type := Nat × TextRange → Option α

namespace Contents

variable {α : Type}

/-- A value is written. -/
def write (contents : Contents α) (entry : (Nat × TextRange) × α) : Contents α :=
  Function.update contents entry.1 (some entry.2)

/-- Values are written one after the other. -/
def writeAll (contents : Contents α) (entries : List ((Nat × TextRange) × α)) : Contents α :=
  entries.foldl write contents

/-- The entries of some files are dropped. -/
def dropFiles (contents : Contents α) (dropped : Nat → Prop) [DecidablePred dropped] : Contents α :=
  fun key => if dropped key.1 then none else contents key

/-- The values of another map are written over those of one. -/
def override (contents other : Contents α) : Contents α := fun key => (other key).or (contents key)

theorem write_apply (contents : Contents α) (entry : (Nat × TextRange) × α)
    (key : Nat × TextRange) :
    contents.write entry key = if key = entry.1 then some entry.2 else contents key :=
  Function.update_apply ..

theorem writeAll_eq (contents : Contents α) (entries : List ((Nat × TextRange) × α)) (fileId : Nat)
    (range : TextRange) : contents.writeAll entries (fileId, range) =
      (EntryMap.lastValue (EntryMap.entriesFor fileId entries) range).or
        (contents (fileId, range)) := by
  unfold writeAll
  induction entries using List.reverseRecOn with
  | nil => rfl
  | append_singleton entries entry ih =>
    have hone : EntryMap.lastValue (EntryMap.entriesFor fileId [entry]) range =
        if entry.1 = (fileId, range) then some entry.2 else none := by
      obtain ⟨⟨file, known⟩, value⟩ := entry
      rw [EntryMap.entriesFor_singleton]
      unfold EntryMap.lastValue lastOf
      by_cases hfile : file = fileId
      · by_cases hrange : known = range
        · simp [hfile, hrange, entryKey]
        · simp [hfile, hrange, entryKey, rangeKey_inj]
      · simp [hfile]
    rw [List.foldl_append, List.foldl_cons, List.foldl_nil, EntryMap.entriesFor_append,
      EntryMap.lastValue_append, hone, write_apply, ih]
    by_cases hkey : entry.1 = (fileId, range)
    · rw [if_pos hkey.symm, if_pos hkey]
      rfl
    · rw [if_neg (Ne.symm hkey), if_neg hkey]
      rfl

/-- The entries of one file, with the file. -/
def forFile (fileId : Nat) (entries : List (TextRange × α)) : List ((Nat × TextRange) × α) :=
  entries.map fun entry => ((fileId, entry.1), entry.2)

theorem entriesFor_forFile (fileId a : Nat) (entries : List (TextRange × α)) :
    EntryMap.entriesFor a (forFile fileId entries) = if fileId = a then entries else [] := by
  unfold EntryMap.entriesFor forFile
  rw [List.filterMap_map]
  split_ifs with hkey
  · simp [hkey]
  · simp [hkey]

end Contents

namespace EntryMap

variable {α : Type} {map other : EntryMap α} {contents more : Contents α}

/-- The map is well formed and holds these contents. -/
structure Holds (map : EntryMap α) (contents : Contents α) : Prop where
  wellFormed : map.WellFormed
  found : ∀ (fileId : Nat) (range : TextRange), found map.byFile[fileId]? range =
    contents (fileId, range)

theorem holds_new : ({} : EntryMap α).Holds fun _ => none :=
  ⟨wellFormed_new, fun _ range => by rw [Std.ExtTreeMap.getElem?_empty]; rfl⟩

theorem holds_fromGrouped (grouped : Std.ExtTreeMap Nat (List (TextRange × α))) :
    (fromGrouped grouped).Holds fun key =>
      Contents.writeAll (fun _ => none) (Contents.forFile key.1 (grouped[key.1]?.getD [])) key := by
  refine ⟨(fromGrouped_spec grouped).1, fun fileId range => ?_⟩
  rw [(fromGrouped_spec grouped).2, Contents.writeAll_eq, Contents.entriesFor_forFile, if_pos rfl,
    Option.or_none]

theorem holds_fromEntries (entries : List ((Nat × TextRange) × α)) :
    (fromEntries entries).Holds (Contents.writeAll (fun _ => none) entries) := by
  refine ⟨(fromGrouped_spec _).1, fun fileId range => ?_⟩
  unfold fromEntries
  rw [(fromGrouped_spec _).2, Contents.writeAll_eq, getElem?_group, Option.or_none]
  split_ifs with hnil
  · rw [hnil]
    rfl
  · rfl

theorem Holds.removeFile (h : map.Holds contents) (fileId : Nat) :
    (map.removeFile fileId).Holds (contents.dropFiles (· = fileId)) := by
  refine ⟨h.wellFormed.removeFile fileId, fun a range => ?_⟩
  rw [byFile_removeFile]
  unfold Contents.dropFiles
  by_cases ha : fileId = a
  · rw [if_pos ha, if_pos ha.symm]
    rfl
  · rw [if_neg ha, if_neg (Ne.symm ha)]
    exact h.found a range

theorem Holds.retainFiles (h : map.Holds contents) (keep : Nat → Bool) :
    (map.retainFiles keep).Holds (contents.dropFiles fun fileId => keep fileId = false) := by
  refine ⟨(retainFiles_spec h.wellFormed keep).1, fun a range => ?_⟩
  rw [(retainFiles_spec h.wellFormed keep).2]
  unfold Contents.dropFiles
  dsimp only
  by_cases hkeep : keep a = true
  · rw [if_pos hkeep, if_neg (by simp [hkeep])]
    exact h.found a range
  · rw [if_neg hkeep, if_pos (by simpa using hkeep)]
    rfl

theorem Holds.replaceFile (h : map.Holds contents) (fileId : Nat) (entries : List (TextRange × α)) :
    (map.replaceFile fileId entries).Holds
      ((contents.dropFiles (· = fileId)).writeAll (Contents.forFile fileId entries)) := by
  refine ⟨h.wellFormed.replaceFile fileId entries, fun a range => ?_⟩
  rw [byFile_replaceFile, Contents.writeAll_eq, Contents.entriesFor_forFile]
  unfold Contents.dropFiles
  by_cases ha : fileId = a
  · rw [if_pos ha, if_pos ha, if_pos ha.symm, Option.or_none]
    split_ifs with hnil
    · rw [hnil]
      rfl
    · exact found_sortMapEntries entries range
  · rw [if_neg ha, if_neg ha, if_neg (Ne.symm ha)]
    exact h.found a range

/-- What a merge makes of the vectors of a file. -/
def mergedEntries : Option (List (TextRange × α)) → List (TextRange × α) →
    Option (List (TextRange × α))
  | none, added => some added
  | some previous, added => some (sortMapEntries (previous ++ added))

/-- A map whose vectors are those of two maps, the one of the other map behind where both have
some. -/
theorem holds_merged (h : map.Holds contents) (hother : other.Holds more) {merged : EntryMap α}
    (hmerged : ∀ a : Nat, merged.byFile[a]? =
      other.byFile[a]?.elim map.byFile[a]? (mergedEntries map.byFile[a]?)) :
    merged.recountLen.Holds (contents.override more) := by
  have hcases : ∀ a : Nat, merged.byFile[a]? = map.byFile[a]? ∧ other.byFile[a]? = none ∨
      merged.byFile[a]? = other.byFile[a]? ∧ map.byFile[a]? = none ∨
      ∃ previous added, map.byFile[a]? = some previous ∧ other.byFile[a]? = some added ∧
        merged.byFile[a]? = some (sortMapEntries (previous ++ added)) := by
    intro a
    rw [hmerged]
    cases other.byFile[a]? with
    | none => exact .inl ⟨rfl, rfl⟩
    | some added =>
      cases map.byFile[a]? with
      | none => exact .inr (.inl ⟨rfl, rfl⟩)
      | some previous => exact .inr (.inr ⟨previous, added, rfl, rfl, rfl⟩)
  refine ⟨wellFormed_recountLen (fun {a entries} hentries => ?_) fun a hempty => ?_,
    fun a range => ?_⟩
  · rcases hcases a with ⟨heq, -⟩ | ⟨heq, -⟩ | ⟨previous, added, -, -, heq⟩
    · exact h.wellFormed.ascending (heq.symm.trans hentries)
    · exact hother.wellFormed.ascending (heq.symm.trans hentries)
    · rw [heq] at hentries
      exact Option.some.inj hentries ▸ ascending_sortedEntries _
  · rcases hcases a with ⟨heq, -⟩ | ⟨heq, -⟩ | ⟨previous, added, hprevious, -, heq⟩
    · exact h.wellFormed.nonempty a (heq.symm.trans hempty)
    · exact hother.wellFormed.nonempty a (heq.symm.trans hempty)
    · rw [heq] at hempty
      have hnil := sortedEntries_eq_nil_iff.mp (Option.some.inj hempty)
      exact h.wellFormed.nonempty a ((List.append_eq_nil_iff.mp hnil).1 ▸ hprevious)
  · show EntryMap.found merged.byFile[a]? range = _
    unfold Contents.override
    rw [← h.found, ← hother.found]
    rcases hcases a with ⟨heq, hnone⟩ | ⟨heq, hnone⟩ | ⟨previous, added, hprevious, hadded, heq⟩
    · rw [heq, hnone]
      rfl
    · rw [heq, hnone, found_none, Option.or_none]
    · rw [heq, hprevious, hadded, found_sortMapEntries, lastValue_append,
        lastValue_of_ascending (h.wellFormed.ascending hprevious),
        lastValue_of_ascending (hother.wellFormed.ascending hadded)]

/-- A map whose vectors have entries put behind those of a map. -/
theorem holds_extended (h : map.Holds contents) (entries : List ((Nat × TextRange) × α))
    {extended : EntryMap α}
    (hextended : ∀ a : Nat, extended.byFile[a]? =
      if entriesFor a entries = [] then map.byFile[a]?
      else some (sortMapEntries ((map.byFile[a]?).getD [] ++ entriesFor a entries))) :
    extended.recountLen.Holds (contents.writeAll entries) := by
  refine ⟨wellFormed_recountLen (fun {a vector} hvector => ?_) fun a hempty => ?_,
    fun a range => ?_⟩
  · rw [hextended] at hvector
    split_ifs at hvector
    · exact h.wellFormed.ascending hvector
    · exact Option.some.inj hvector ▸ ascending_sortedEntries _
  · rw [hextended] at hempty
    split_ifs at hempty with hnil
    · exact h.wellFormed.nonempty a hempty
    · exact hnil (List.append_eq_nil_iff.mp
        (sortedEntries_eq_nil_iff.mp (Option.some.inj hempty))).2
  · show EntryMap.found extended.byFile[a]? range = _
    rw [hextended, Contents.writeAll_eq, ← h.found]
    split_ifs with hnil
    · rw [hnil]
      rfl
    · rw [found_sortMapEntries, lastValue_append]
      cases hvector : map.byFile[a]? with
      | none => rfl
      | some vector => rw [Option.getD_some, lastValue_of_ascending
          (h.wellFormed.ascending hvector)]

/-- Entries that are sorted before they are put behind others. -/
theorem sortMapEntries_append_sorted (previous added : List (TextRange × α)) :
    sortMapEntries (previous ++ sortMapEntries added) = sortMapEntries (previous ++ added) := by
  refine eq_of_find?_eq (ascending_sortedEntries _) (ascending_sortedEntries _) fun k => ?_
  have hsorted : lastOf entryKey (sortMapEntries added) k = lastOf entryKey added k := by
    unfold sortMapEntries
    rw [lastOf_of_ascending (ascending_sortedEntries added), find?_sortedEntries]
  unfold sortMapEntries at hsorted ⊢
  rw [find?_sortedEntries, find?_sortedEntries, lastOf_append, lastOf_append, hsorted]

end EntryMap

/-! ## Merging and extending -/

section

open EntryMap (mergedEntries)

variable {contents more : Contents PositionRange} {map other : PositionMap}

theorem PositionMap.holds_merge (h : map.Holds contents) (hother : other.Holds more) :
    (PositionMap.merge map other).Holds (contents.override more) := by
  have hstep : ∀ (map : PositionMap) (file : Nat) (added : List (TextRange × PositionRange))
    (a : Nat),
      (mergeFile map (file, added)).byFile[a]? =
        if file = a then mergedEntries map.byFile[file]? added else map.byFile[a]? := by
    intro map file added a
    unfold mergeFile
    dsimp only
    cases map.byFile[file]? with
    | none => exact getElem?_insert ..
    | some previous =>
      dsimp only
      rw [getElem?_insert, getElem?_erase]
      split_ifs <;> rfl
  exact EntryMap.holds_merged h hother fun a =>
    look_foldl_toList (fun (map : PositionMap) (a : Nat) => map.byFile[a]?) mergedEntries hstep
      other.byFile map a

theorem PositionMap.holds_extend (h : map.Holds contents)
    (entries : List ((Nat × TextRange) × PositionRange)) :
    (PositionMap.extend map entries).Holds (contents.writeAll entries) := by
  have hstep : ∀ (map : PositionMap) (file : Nat) (added : List (TextRange × PositionRange))
    (a : Nat),
      (mergeGroup map (file, added)).byFile[a]? =
        if file = a then some (sortMapEntries (map.byFile[file]?.getD [] ++ added)) else
          map.byFile[a]? := by
    intro map file added a
    unfold mergeGroup
    dsimp only
    rw [getElem?_insert, getElem?_erase]
    split_ifs <;> rfl
  refine EntryMap.holds_extended h entries fun a => ?_
  have hlook := look_foldl_toList (fun (map : PositionMap) (a : Nat) => map.byFile[a]?)
    (fun previous added => some (sortMapEntries (previous.getD [] ++ added))) hstep
    (EntryMap.group entries) map a
  rw [hlook, EntryMap.getElem?_group]
  split_ifs <;> rfl

end

section

open EntryMap (mergedEntries)

variable {contents more : Contents LocalisationPreview} {map other : LocalisationPreviewMap}

theorem LocalisationPreviewMap.byFile_mergeShared (map : LocalisationPreviewMap)
    (additions : Std.ExtTreeMap Nat (List (TextRange × LocalisationPreview))) (a : Nat) :
    (additions.toList.foldl mergeFile map).byFile[a]? =
      additions[a]?.elim map.byFile[a]? (mergedEntries map.byFile[a]?) := by
  refine look_foldl_toList (fun (map : LocalisationPreviewMap) (a : Nat) => map.byFile[a]?)
    mergedEntries (fun map file added a => ?_) additions map a
  unfold mergeFile
  dsimp only
  cases map.byFile[file]? with
  | none => exact getElem?_insert ..
  | some previous =>
    dsimp only
    rw [getElem?_insert, getElem?_erase]
    split_ifs <;> rfl

theorem LocalisationPreviewMap.holds_merge (h : map.Holds contents) (hother : other.Holds more) :
    (LocalisationPreviewMap.merge map other).Holds (contents.override more) :=
  EntryMap.holds_merged h hother (byFile_mergeShared map other.byFile)

theorem LocalisationPreviewMap.holds_extend (h : map.Holds contents)
    (entries : List ((Nat × TextRange) × LocalisationPreview)) :
    (LocalisationPreviewMap.extend map entries).Holds (contents.writeAll entries) := by
  refine EntryMap.holds_extended h entries fun a => ?_
  rw [byFile_mergeShared, Std.ExtTreeMap.getElem?_filterMap', EntryMap.getElem?_group]
  by_cases hnil : EntryMap.entriesFor a entries = []
  · rw [if_pos hnil, if_pos hnil]
    rfl
  · rw [if_neg hnil, if_neg hnil, Option.bind_some, if_neg fun hempty =>
      hnil (List.isEmpty_iff.mp hempty)]
    cases map.byFile[a]? with
    | none => rfl
    | some previous => exact congrArg some (EntryMap.sortMapEntries_append_sorted previous _)

/-- A handle in range order takes the place of the entries of a file. -/
theorem LocalisationPreviewMap.holds_replaceFileShared (h : map.Holds contents) (fileId : Nat)
    {entries : Option (List (TextRange × LocalisationPreview))}
    (hascending : ∀ vector ∈ entries, Ascending entryKey vector) :
    (LocalisationPreviewMap.replaceFileShared map fileId entries).Holds
      ((contents.dropFiles (· = fileId)).writeAll (Contents.forFile fileId (entries.getD []))) := by
  have hremoved := h.removeFile fileId
  have hkept : (entries.filter fun entries => !entries.isEmpty) = none ∧ entries.getD [] = [] ∨
      ∃ vector, (entries.filter fun entries => !entries.isEmpty) = some vector ∧
        entries = some vector ∧ vector ≠ [] := by
    cases entries with
    | none => exact .inl ⟨rfl, rfl⟩
    | some vector => cases vector <;> simp
  unfold replaceFileShared
  dsimp only
  rcases hkept with ⟨hnone, hnil⟩ | ⟨vector, hsome, rfl, hne⟩
  · rw [hnone, hnil]
    exact hremoved
  · rw [hsome]
    dsimp only
    have hgone : (EntryMap.removeFile map fileId).byFile[fileId]? = none := by
      rw [EntryMap.byFile_removeFile, if_pos rfl]
    refine ⟨hremoved.wellFormed.insert hgone hne (hascending vector rfl), fun a range => ?_⟩
    rw [Contents.writeAll_eq, Contents.entriesFor_forFile, ← hremoved.found, getElem?_insert]
    by_cases ha : fileId = a
    · subst ha
      rw [if_pos rfl, if_pos rfl, hgone, Option.getD_some, EntryMap.found_none, Option.or_none,
        EntryMap.lastValue_of_ascending (hascending vector rfl)]
    · rw [if_neg ha, if_neg ha]
      rfl

end

/-! ## Programs of operations -/

/-- The order of the keys of a map. -/
def mapKey (key : Nat × TextRange) : ℕ ×ₗ ℕ ×ₗ ℕ := toLex (key.1, rangeKey key.2)

namespace EntryMap

variable {α : Type} {map : EntryMap α} {contents : Contents α}

theorem pairwise_iter (h : map.WellFormed) :
    map.iter.Pairwise fun a b => mapKey a.1 < mapKey b.1 := by
  unfold iter mapKey
  rw [List.pairwise_flatMap]
  constructor
  · rintro ⟨fileId, entries⟩ hfile
    have hascending := h.ascending (Std.ExtTreeMap.mem_toList_iff_getElem?_eq_some.mp hfile)
    rw [List.pairwise_map]
    refine List.Pairwise.imp (fun {a b} hlt => ?_) hascending
    exact Prod.Lex.toLex_lt_toLex.mpr (.inr ⟨rfl, hlt⟩)
  · refine map.byFile.ordered_keys_toList.imp fun {a b} hlt => ?_
    intro x hx y hy
    obtain ⟨_, -, rfl⟩ := List.mem_map.mp hx
    obtain ⟨_, -, rfl⟩ := List.mem_map.mp hy
    exact Prod.Lex.toLex_lt_toLex.mpr (.inl (Nat.compare_eq_lt.mp hlt))

theorem mem_iter_iff (h : map.Holds contents) {key : Nat × TextRange} {value : α} :
    (key, value) ∈ map.iter ↔ contents key = some value := by
  obtain ⟨fileId, range⟩ := key
  rw [← h.found]
  unfold iter EntryMap.found
  rw [List.mem_flatMap]
  constructor
  · rintro ⟨⟨file, entries⟩, hfile, hmem⟩
    obtain ⟨⟨known, found⟩, hentry, heq⟩ := List.mem_map.mp hmem
    cases heq
    have hentries := Std.ExtTreeMap.mem_toList_iff_getElem?_eq_some.mp hfile
    have hfind : (entries.find? fun entry => entryKey entry = rangeKey range) =
      some (range, value) :=
      (find?_eq_some_iff (h.wellFormed.ascending hentries)).mpr ⟨hentry, rfl⟩
    rw [hentries, Option.bind_some, hfind]
    rfl
  · intro hvalue
    obtain ⟨⟨known, found⟩, hfind, rfl⟩ := Option.map_eq_some_iff.mp hvalue
    obtain ⟨entries, hentries, hfind⟩ := Option.bind_eq_some_iff.mp hfind
    obtain ⟨hmem, hkey⟩ := (find?_eq_some_iff (h.wellFormed.ascending hentries)).mp hfind
    obtain rfl := rangeKey_inj.mp hkey
    exact ⟨(fileId, entries), Std.ExtTreeMap.mem_toList_iff_getElem?_eq_some.mpr hentries,
      List.mem_map.mpr ⟨(known, found), hmem, rfl⟩⟩

theorem length_iter (h : map.WellFormed) : map.iter.length = map.len := by
  rw [h.len]
  unfold iter total
  rw [List.length_flatMap]
  simp only [List.length_map]

/-- The map is the finite map of these contents: a lookup gives the value of the key, the files
without values have no vector, the iterator gives each key with a value once and in order, and the
count is the number of these keys. -/
structure Represents (map : EntryMap α) (contents : Contents α) : Prop where
  get : ∀ key, map.get key = contents key
  files : ∀ fileId : Nat, map.byFile[fileId]? = none ↔ ∀ range, contents (fileId, range) = none
  sorted : map.iter.Pairwise fun a b => mapKey a.1 < mapKey b.1
  mem_iter : ∀ key value, (key, value) ∈ map.iter ↔ contents key = some value
  len : map.len = {key | contents key ≠ none}.ncard

theorem Holds.represents (h : map.Holds contents) : map.Represents contents where
  get key := (h.wellFormed.get_eq key.1 key.2).trans (h.found key.1 key.2)
  files fileId := by
    simp only [← h.found]
    cases hentries : map.byFile[fileId]? with
    | none => exact iff_of_true rfl fun _ => rfl
    | some entries =>
      refine iff_of_false (Option.some_ne_none _) fun hnone => ?_
      cases entries with
      | nil => exact h.wellFormed.nonempty fileId hentries
      | cons entry entries =>
        have hfirst := (find?_eq_some_iff (h.wellFormed.ascending hentries)
          (k := entryKey entry)).mpr ⟨List.mem_cons_self, rfl⟩
        have := hnone entry.1
        unfold EntryMap.found at this
        rw [Option.bind_some] at this
        unfold entryKey at hfirst this
        rw [hfirst] at this
        cases this
  sorted := pairwise_iter h.wellFormed
  mem_iter _ _ := mem_iter_iff h
  len := by
    have hnodup : (map.iter.map Prod.fst).Nodup := by
      refine List.pairwise_map.mpr ((pairwise_iter h.wellFormed).imp fun {a b} hlt heq => ?_)
      rw [heq] at hlt
      exact lt_irrefl _ hlt
    have hkeys : {key | contents key ≠ none} = ↑(map.iter.map Prod.fst).toFinset := by
      ext key
      rw [Set.mem_ofPred_eq, Option.ne_none_iff_exists', List.coe_toFinset,
        Set.mem_ofPred_eq, List.mem_map]
      constructor
      · rintro ⟨value, hvalue⟩
        exact ⟨(key, value), (mem_iter_iff h).mpr hvalue, rfl⟩
      · rintro ⟨⟨_, value⟩, hmem, rfl⟩
        exact ⟨value, (mem_iter_iff h).mp hmem⟩
    rw [hkeys, Set.ncard_coe_finset, List.toFinset_card_of_nodup hnodup, List.length_map,
      length_iter h.wellFormed]

end EntryMap

/-- How a map has come about. One entry is put in as a batch of one. -/
inductive MapProgram (α : Type) where
  | new
  | fromEntries (entries : List ((Nat × TextRange) × α))
  | fromGrouped (grouped : Std.ExtTreeMap Nat (List (TextRange × α)))
  | insert (before : MapProgram α) (key : Nat × TextRange) (value : α)
  | extend (before : MapProgram α) (entries : List ((Nat × TextRange) × α))
  | replaceFile (before : MapProgram α) (fileId : Nat) (entries : List (TextRange × α))
  | removeFile (before : MapProgram α) (fileId : Nat)
  | retainFiles (before : MapProgram α) (keep : Nat → Bool)
  | merge (before other : MapProgram α)

/-- What the operations write and drop, one after the other. -/
def MapProgram.contents {α : Type} : MapProgram α → Contents α
  | new => fun _ => none
  | fromEntries entries => Contents.writeAll (fun _ => none) entries
  | fromGrouped grouped => fun key =>
    Contents.writeAll (fun _ => none) (Contents.forFile key.1 (grouped[key.1]?.getD [])) key
  | insert before key value => before.contents.write (key, value)
  | extend before entries => before.contents.writeAll entries
  | replaceFile before fileId entries =>
    (before.contents.dropFiles (· = fileId)).writeAll (Contents.forFile fileId entries)
  | removeFile before fileId => before.contents.dropFiles (· = fileId)
  | retainFiles before keep => before.contents.dropFiles fun fileId => keep fileId = false
  | merge before other => before.contents.override other.contents

def PositionMap.run : MapProgram PositionRange → PositionMap
  | .new => {}
  | .fromEntries entries => EntryMap.fromEntries entries
  | .fromGrouped grouped => EntryMap.fromGrouped grouped
  | .insert before key value => (run before).extend [(key, value)]
  | .extend before entries => (run before).extend entries
  | .replaceFile before fileId entries => (run before).replaceFile fileId entries
  | .removeFile before fileId => (run before).removeFile fileId
  | .retainFiles before keep => (run before).retainFiles keep
  | .merge before other => (run before).merge (run other)

def LocalisationPreviewMap.run : MapProgram LocalisationPreview → LocalisationPreviewMap
  | .new => {}
  | .fromEntries entries => EntryMap.fromEntries entries
  | .fromGrouped grouped => EntryMap.fromGrouped grouped
  | .insert before key value => (run before).extend [(key, value)]
  | .extend before entries => (run before).extend entries
  | .replaceFile before fileId entries => (run before).replaceFile fileId entries
  | .removeFile before fileId => (run before).removeFile fileId
  | .retainFiles before keep => (run before).retainFiles keep
  | .merge before other => (run before).merge (run other)

theorem PositionMap.holds_run (program : MapProgram PositionRange) :
    (run program).Holds program.contents := by
  induction program with
  | new => exact EntryMap.holds_new
  | fromEntries entries => exact EntryMap.holds_fromEntries entries
  | fromGrouped grouped => exact EntryMap.holds_fromGrouped grouped
  | insert before key value ih => exact holds_extend ih [(key, value)]
  | extend before entries ih => exact holds_extend ih entries
  | replaceFile before fileId entries ih => exact ih.replaceFile fileId entries
  | removeFile before fileId ih => exact ih.removeFile fileId
  | retainFiles before keep ih => exact ih.retainFiles keep
  | merge before other ih ihOther => exact holds_merge ih ihOther

theorem LocalisationPreviewMap.holds_run (program : MapProgram LocalisationPreview) :
    (run program).Holds program.contents := by
  induction program with
  | new => exact EntryMap.holds_new
  | fromEntries entries => exact EntryMap.holds_fromEntries entries
  | fromGrouped grouped => exact EntryMap.holds_fromGrouped grouped
  | insert before key value ih => exact holds_extend ih [(key, value)]
  | extend before entries ih => exact holds_extend ih entries
  | replaceFile before fileId entries ih => exact ih.replaceFile fileId entries
  | removeFile before fileId ih => exact ih.removeFile fileId
  | retainFiles before keep ih => exact ih.retainFiles keep
  | merge before other ih ihOther => exact holds_merge ih ihOther

/-- Both maps are finite maps, through any operations. -/
theorem entryMaps_represent :
    (∀ program, (PositionMap.run program).Represents program.contents) ∧
      ∀ program, (LocalisationPreviewMap.run program).Represents program.contents :=
  ⟨fun program => (PositionMap.holds_run program).represents,
    fun program => (LocalisationPreviewMap.holds_run program).represents⟩

end ParadoxCode.Index
