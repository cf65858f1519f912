import Mathlib.Data.List.Induction
import ParadoxCode.Lib.StableSort

/-!
# Sorted entries

Entries in the order of their keys, one for each key. `sortedEntries` sorts a list and keeps the
last entry of each key, in place; `binarySearch` finds an entry. Such a list is determined by what
is found in it (`eq_of_find?_eq`), and what is found is the last entry of the key
(`find?_sortedEntries`).
-/

namespace SortedEntries

open StableSort

section

variable {α κ : Type*}

/-! ## In place -/

/-- Swaps two elements. -/
def swap (xs : List α) (i j : Nat) : List α :=
  match xs[i]?, xs[j]? with
  | some a, some b => (xs.set i b).set j a
  | _, _ => xs

variable [DecidableEq κ] (key : α → κ)

/-- One round of the loop, at the index `read`: the element replaces the last one that is kept,
where that has its key, and is put behind it otherwise. -/
def compactStep (state : List α × Nat) (read : Nat) : List α × Nat :=
  let (entries, write) := state
  if 0 < write ∧ entries[write - 1]?.map key = entries[read]?.map key then
    match entries[read]? with
    | some entry => (entries.set (write - 1) entry, write)
    | none => (entries, write)
  else (swap entries write read, write + 1)

/-- Keeps the last of neighbours with one key. -/
def compact (entries : List α) : List α :=
  let (kept, write) := (List.range entries.length).foldl (compactStep key) (entries, 0)
  kept.take write

/-- An element behind the ones that are kept. -/
def push (kept : List α) (entry : α) : List α :=
  if kept.getLast?.map key = some (key entry) then kept.set (kept.length - 1) entry else
    kept ++ [entry]

/-- The state of the loop before the index `read`. -/
structure Compacting (xs : List α) (read : Nat) (state : List α × Nat) (kept : List α) : Prop where
  front : ∀ i, i < state.2 → state.1[i]? = kept[i]?
  length : kept.length = state.2
  back : ∀ i, read ≤ i → state.1[i]? = xs[i]?
  le : state.2 ≤ read
  total : state.1.length = xs.length

variable {key}

theorem getElem?_swap {xs : List α} {i j : Nat} (hi : i < xs.length)
    (hj : j < xs.length) (k : Nat) :
    (swap xs i j)[k]? = if j = k then xs[i]? else if i = k then xs[j]? else xs[k]? := by
  unfold swap
  rw [List.getElem?_eq_getElem hi, List.getElem?_eq_getElem hj]
  dsimp only
  rw [List.getElem?_set, List.getElem?_set, List.length_set]
  split_ifs <;> rfl

theorem length_swap (xs : List α) (i j : Nat) : (swap xs i j).length = xs.length := by
  unfold swap
  split
  · rw [List.length_set, List.length_set]
  · rfl

theorem Compacting.step {xs : List α} {read : Nat} {state : List α × Nat} {kept : List α}
    (h : Compacting xs read state kept) {entry : α} (hentry : xs[read]? = some entry) :
    Compacting xs (read + 1) (compactStep key state read) (push key kept entry) := by
  obtain ⟨entries, write⟩ := state
  obtain ⟨hfront, hlength, hback, hle, htotal⟩ := h
  dsimp only at hfront hlength hback hle htotal
  have hread : entries[read]? = some entry := (hback read le_rfl).trans hentry
  have hlt : read < entries.length := (List.getElem?_eq_some_iff.mp hread).1
  have hlast : (0 < write ∧ entries[write - 1]?.map key = entries[read]?.map key) ↔
      kept.getLast?.map key = some (key entry) := by
    rw [hread, List.getLast?_eq_getElem?, hlength, Option.map_some]
    rcases Nat.eq_zero_or_pos write with rfl | hpos
    · obtain rfl := List.length_eq_zero_iff.mp hlength
      simp
    · rw [← hfront (write - 1) (by omega)]
      exact and_iff_right hpos
  unfold compactStep push
  dsimp only
  by_cases hsame : kept.getLast?.map key = some (key entry)
  · have hpos := (hlast.mpr hsame).1
    rw [if_pos (hlast.mpr hsame), if_pos hsame, hread]
    dsimp only
    refine ⟨fun i hi => ?_, by rw [List.length_set, hlength],
      fun i hi => ?_, by omega, by rw [List.length_set, htotal]⟩
    · rw [List.getElem?_set, List.getElem?_set, hlength]
      split_ifs with heq
      · rfl
      · omega
      · omega
      · rfl
      · exact hfront i hi
    · rw [List.getElem?_set_ne (by omega)]
      exact hback i (by omega)
  · rw [if_neg (hlast.not.mpr hsame), if_neg hsame]
    have hwrite : write < entries.length := by omega
    refine ⟨fun i hi => ?_, by rw [List.length_append, hlength]; rfl, fun i hi => ?_,
      Nat.succ_le_succ hle, by rw [length_swap, htotal]⟩
    · dsimp only at hi ⊢
      rw [getElem?_swap hwrite hlt]
      by_cases hnew : i = write
      · subst hnew
        rw [if_pos rfl, hread, ← hlength, List.getElem?_concat_length, hlength, ite_eq_right_iff]
        intro heq
        rw [← heq, hread]
      · rw [if_neg (by omega), if_neg (by omega), hfront i (by omega),
          List.getElem?_append_left (by omega)]
    · dsimp only
      rw [getElem?_swap hwrite hlt, if_neg (by omega), if_neg (by omega)]
      exact hback i (by omega)

/-- The loop keeps what goes through it from left to right keeps. -/
theorem compact_eq (xs : List α) : compact key xs = xs.foldl (push key) [] := by
  have hloop : ∀ read ≤ xs.length, Compacting xs read
    ((List.range read).foldl (compactStep key) (xs, 0))
      ((xs.take read).foldl (push key) []) := by
    intro read
    induction read with
    | zero => exact fun _ => ⟨fun i hi => absurd hi (Nat.not_lt_zero i), rfl,
        fun _ _ => rfl, le_rfl, rfl⟩
    | succ read ih =>
      intro hle
      have hread := List.getElem?_eq_getElem (l := xs) (i := read) (by omega)
      rw [List.range_succ, List.foldl_append, List.take_add_one, List.foldl_append, hread]
      exact (ih (by omega)).step hread
  obtain ⟨hfront, hlength, -, -, -⟩ := hloop xs.length le_rfl
  rw [List.take_length] at hfront hlength
  unfold compact
  cases hstate : (List.range xs.length).foldl (compactStep key) (xs, 0) with
  | mk entries write =>
  rw [hstate] at hfront hlength
  dsimp only at hfront hlength ⊢
  refine List.ext_getElem? fun i => ?_
  rw [List.getElem?_take]
  split_ifs with hi
  · exact hfront i hi
  · rw [List.getElem?_eq_none (by omega)]

end

/-! ## The last entry of each key -/

section

variable {α κ : Type*} [LinearOrder κ] {key : α → κ}

/-- The entries in the order of their keys, the last one of each key. -/
def sortedEntries (key : α → κ) (entries : List α) : List α := compact key (sortByKey key entries)

/-- The last entry of a key. -/
def lastOf (key : α → κ) (entries : List α) (k : κ) : Option α :=
  entries.reverse.find? fun a => key a = k

theorem lastOf_append (xs ys : List α) (k : κ) :
    lastOf key (xs ++ ys) k = (lastOf key ys k).or (lastOf key xs k) := by
  unfold lastOf
  rw [List.reverse_append, List.find?_append]

theorem lastOf_eq_getLast? (xs : List α) (k : κ) :
    lastOf key xs k = (xs.filter fun a => key a = k).getLast? := by
  unfold lastOf
  rw [← List.head?_filter, List.filter_reverse, List.head?_reverse]

theorem lastOf_sortByKey (xs : List α) (k : κ) : lastOf key (sortByKey key xs) k =
    lastOf key xs k := by
  rw [lastOf_eq_getLast?, filter_key_sortByKey, lastOf_eq_getLast?]

theorem push_concat (front : List α) (last entry : α) :
    push key (front ++ [last]) entry =
      if key last = key entry then front ++ [entry] else front ++ [last] ++ [entry] := by
  unfold push
  simp

/-- Entries of ascending keys. -/
def Ascending (key : α → κ) (entries : List α) : Prop := entries.Pairwise fun a b => key a < key b

/-- What is kept of entries that are in order: the keys ascend, and an entry is the last one of its
key. -/
structure Keeps (key : α → κ) (xs kept : List α) : Prop where
  ascending : Ascending key kept
  find : ∀ k, (kept.find? fun a => key a = k) = lastOf key xs k
  subset : ∀ a ∈ kept, a ∈ xs

theorem Keeps.push {xs kept : List α} (h : Keeps key xs kept) {entry : α}
    (hbelow : ∀ a ∈ xs, key a ≤ key entry) : Keeps key (xs ++ [entry]) (push key kept entry) := by
  obtain ⟨hascending, hfind, hsubset⟩ := h
  have hlast : ∀ k, lastOf key (xs ++ [entry]) k = if key entry = k then some entry else
    lastOf key xs k := by
    intro k
    rw [lastOf_append]
    unfold lastOf
    by_cases hk : key entry = k <;> simp [hk]
  rcases List.eq_nil_or_concat kept with rfl | ⟨front, last, rfl⟩
  · refine ⟨List.pairwise_singleton _ _, fun k => ?_, fun a ha => List.mem_append_right xs ha⟩
    rw [hlast, ← hfind]
    by_cases hk : key entry = k <;> simp [SortedEntries.push, hk]
  · rw [List.concat_eq_append] at *
    rw [push_concat]
    have hfront := (List.pairwise_append.mp hascending).1
    have hfrontLast : ∀ a ∈ front, key a < key last := fun a ha =>
      (List.pairwise_append.mp hascending).2.2 a ha last (List.mem_singleton_self last)
    have hle : key last ≤ key entry :=
      hbelow last (hsubset last (List.mem_append_right _ (List.mem_singleton_self last)))
    split_ifs with hsame
    · -- the entry replaces the one before it
      refine ⟨?_, fun k => ?_, fun a ha => ?_⟩
      · refine List.pairwise_append.mpr ⟨hfront, List.pairwise_singleton _ _, fun a ha b hb => ?_⟩
        rw [List.mem_singleton.mp hb, ← hsame]
        exact hfrontLast a ha
      · have hk := hfind k
        rw [List.find?_append] at hk
        rw [hlast, List.find?_append]
        by_cases hkey : key entry = k
        · have hnone : (front.find? fun a => key a = k) = none := by
            rw [List.find?_eq_none]
            intro a ha
            have := hfrontLast a ha
            rw [decide_eq_true_eq, ← hkey, ← hsame]
            exact this.ne
          simp [hnone, hkey]
        · rw [if_neg hkey, ← hk]
          simp [hsame, hkey]
      · rcases List.mem_append.mp ha with ha | ha
        · exact List.mem_append_left _ (hsubset a (List.mem_append_left _ ha))
        · exact List.mem_append_right _ ha
    · have hlt := hle.lt_of_ne hsame
      refine ⟨?_, fun k => ?_, fun a ha => ?_⟩
      · refine List.pairwise_append.mpr ⟨hascending, List.pairwise_singleton _ _,
          fun a ha b hb => ?_⟩
        rw [List.mem_singleton.mp hb]
        rcases List.mem_append.mp ha with ha | ha
        · exact (hfrontLast a ha).trans hlt
        · rw [List.mem_singleton.mp ha]
          exact hlt
      · rw [hlast, List.find?_append, hfind]
        by_cases hkey : key entry = k
        · have hnone : lastOf key xs k = none := by
            rw [← hfind, List.find?_eq_none]
            intro a ha
            rw [decide_eq_true_eq, ← hkey]
            rcases List.mem_append.mp ha with ha | ha
            · exact ((hfrontLast a ha).trans hlt).ne
            · rw [List.mem_singleton.mp ha]
              exact hlt.ne
          simp [hnone, hkey]
        · simp [hkey]
      · rcases List.mem_append.mp ha with ha | ha
        · exact List.mem_append_left _ (hsubset a ha)
        · exact List.mem_append_right _ ha

theorem keeps_foldl_push {xs : List α} (h : xs.Pairwise fun a b => key a ≤ key b) :
    Keeps key xs (xs.foldl (SortedEntries.push key) []) := by
  induction xs using List.reverseRecOn with
  | nil => exact ⟨List.Pairwise.nil, fun _ => rfl, fun a ha => ha⟩
  | append_singleton xs entry ih =>
    obtain ⟨hsorted, -, hbelow⟩ := List.pairwise_append.mp h
    rw [List.foldl_append, List.foldl_cons, List.foldl_nil]
    exact (ih hsorted).push fun a ha => hbelow a ha entry (List.mem_singleton_self entry)

theorem keeps_sortedEntries (entries : List α) :
    Keeps key (sortByKey key entries) (sortedEntries key entries) := by
  unfold sortedEntries
  rw [compact_eq]
  exact keeps_foldl_push (pairwise_sortByKey key entries)

theorem ascending_sortedEntries (entries : List α) : Ascending key (sortedEntries key entries) :=
  (keeps_sortedEntries entries).ascending

/-- What is found is the last entry of the key. -/
theorem find?_sortedEntries (entries : List α) (k : κ) :
    ((sortedEntries key entries).find? fun a => key a = k) = lastOf key entries k := by
  rw [(keeps_sortedEntries entries).find, lastOf_sortByKey]

variable {entries : List α}

theorem lastOf_eq_none_iff {k : κ} : lastOf key entries k = none ↔ ∀ a ∈ entries, key a ≠ k := by
  unfold lastOf
  simp

theorem sortedEntries_eq_nil_iff : sortedEntries key entries = [] ↔ entries = [] := by
  constructor
  · intro h
    cases entries with
    | nil => rfl
    | cons entry entries =>
      have hfind : ((sortedEntries key (entry :: entries)).find? fun a => key a = key entry) = _ :=
        find?_sortedEntries (entry :: entries) (key entry)
      rw [h, List.find?_nil, eq_comm, lastOf_eq_none_iff] at hfind
      exact absurd rfl (hfind entry List.mem_cons_self)
  · rintro rfl
    rfl

/-! ## Lists of ascending keys -/

theorem find?_eq_some_iff (h : Ascending key entries) {k : κ} {a : α} :
    (entries.find? fun a => key a = k) = some a ↔ a ∈ entries ∧ key a = k := by
  induction entries with
  | nil => simp
  | cons entry entries ih =>
    obtain ⟨hbelow, hrest⟩ := List.pairwise_cons.mp h
    rw [List.find?_cons]
    by_cases hk : key entry = k
    · simp only [hk, decide_true, Option.some.injEq, List.mem_cons]
      constructor
      · rintro rfl
        exact ⟨.inl rfl, hk⟩
      · rintro ⟨rfl | ha, hkey⟩
        · rfl
        · exact absurd (hbelow a ha) (by rw [hk, hkey]; exact lt_irrefl k)
    · simp only [hk, decide_false, ih hrest, List.mem_cons]
      constructor
      · exact fun ⟨ha, hkey⟩ => ⟨.inr ha, hkey⟩
      · rintro ⟨rfl | ha, hkey⟩
        · exact absurd hkey hk
        · exact ⟨ha, hkey⟩

/-- The last entry of a key is the only one. -/
theorem lastOf_of_ascending (h : Ascending key entries) (k : κ) :
    lastOf key entries k = entries.find? fun a => key a = k := by
  induction entries with
  | nil => rfl
  | cons entry entries ih =>
    obtain ⟨hbelow, hrest⟩ := List.pairwise_cons.mp h
    have hfirst : lastOf key [entry] k = if key entry = k then some entry else none := by
      unfold lastOf
      by_cases hk : key entry = k <;> simp [hk]
    rw [← List.singleton_append, lastOf_append, hfirst, List.singleton_append, List.find?_cons]
    by_cases hk : key entry = k
    · have hnone : lastOf key entries k = none := by
        rw [lastOf_eq_none_iff]
        intro a ha heq
        have hlt := hbelow a ha
        rw [hk, heq] at hlt
        exact lt_irrefl _ hlt
      simp [hnone, hk]
    · simp [hk, ih hrest]

/-- Lists of ascending keys in which the same is found are the same. -/
theorem eq_of_find?_eq {xs ys : List α} (hxs : Ascending key xs) (hys : Ascending key ys)
    (h : ∀ k, (xs.find? fun a => key a = k) = ys.find? fun a => key a = k) : xs = ys := by
  have hmem : ∀ a, a ∈ xs ↔ a ∈ ys := by
    intro a
    have hx := find?_eq_some_iff hxs (k := key a) (a := a)
    have hy := find?_eq_some_iff hys (k := key a) (a := a)
    rw [h] at hx
    simpa using hx.symm.trans hy
  have hnodup : ∀ {zs : List α}, Ascending key zs → zs.Nodup := by
    intro zs hzs
    refine List.Pairwise.imp (fun {a b} hlt heq => ?_) hzs
    rw [heq] at hlt
    exact lt_irrefl _ hlt
  exact ((List.perm_ext_iff_of_nodup (hnodup hxs) (hnodup hys)).mpr hmem).eq_of_pairwise
    (fun a b _ _ hab hba => absurd (lt_trans hab hba) (lt_irrefl _)) hxs hys

/-! ## Binary search -/

/-- The loop of the search: the window of `size` elements from `base` on is halved until one is
left. -/
def narrow (key : α → κ) (entries : List α) (k : κ) : Nat → Nat → Nat → Nat
  | 0, base, _ => base
  | fuel + 1, base, size =>
    if size ≤ 1 then base
    else
      let half := size / 2
      let mid := base + half
      narrow key entries k fuel (if (entries[mid]?.any fun a => decide (k < key a)) = true then
        base else mid) (size - half)

/-- The index of an entry with the key. -/
def binarySearch (key : α → κ) (entries : List α) (k : κ) : Option Nat :=
  if entries.length = 0 then none
  else
    let base := narrow key entries k entries.length 0 entries.length
    if entries[base]?.map key = some k then some base else none

theorem narrow_eq (h : Ascending key entries) {k : κ} {index : Nat}
    (hindex : entries[index]?.map key = some k) : ∀ (fuel base size : Nat), size ≤ fuel + 1 →
      base + size ≤ entries.length → base ≤ index → index < base + size →
        narrow key entries k fuel base size = index := by
  intro fuel
  induction fuel with
  | zero =>
    intro base size hfuel _ hbase hsize
    unfold narrow
    omega
  | succ fuel ih =>
    intro base size hfuel hwindow hbase hsize
    unfold narrow
    split_ifs with hone
    · omega
    · dsimp only
      have hmid : base + size / 2 < entries.length := by omega
      rw [List.getElem?_eq_getElem hmid, Option.any_some]
      obtain ⟨entry, hentry, hkey⟩ := Option.map_eq_some_iff.mp hindex
      obtain ⟨hlt, rfl⟩ := List.getElem?_eq_some_iff.mp hentry
      have hascending := List.pairwise_iff_getElem.mp h
      subst hkey
      by_cases hside : index < base + size / 2
      · rw [if_pos (decide_eq_true (hascending index _ hlt hmid hside))]
        exact ih base (size - size / 2) (by omega) (by omega) hbase (by omega)
      · rw [if_neg ?_]
        · exact ih (base + size / 2) (size - size / 2) (by omega) (by omega) (by omega) (by omega)
        · rw [decide_eq_true_eq, not_lt]
          rcases Nat.lt_or_eq_of_le (Nat.not_lt.mp hside) with hbelow | heq
          · exact (hascending _ index hmid hlt hbelow).le
          · simp only [heq, le_refl]

/-- The search finds what a search from left to right finds. -/
theorem binarySearch_bind (h : Ascending key entries) (k : κ) :
    ((binarySearch key entries k).bind fun index => entries[index]?) = entries.find? fun a =>
      key a = k := by
  unfold binarySearch
  dsimp only
  cases hfind : entries.find? fun a => key a = k with
  | none =>
    have hnone : ∀ index : Nat, entries[index]?.map key ≠ some k := by
      intro index hindex
      obtain ⟨entry, hentry, hkey⟩ := Option.map_eq_some_iff.mp hindex
      have := List.find?_eq_none.mp hfind entry (List.mem_of_getElem? hentry)
      exact this (decide_eq_true hkey)
    rw [if_neg (hnone _), ite_self, Option.bind_none]
  | some entry =>
    obtain ⟨hmem, hkey⟩ := (find?_eq_some_iff h).mp hfind
    obtain ⟨index, hlt, hentry⟩ := List.mem_iff_getElem.mp hmem
    have hindex : entries[index]?.map key = some k := by
      rw [List.getElem?_eq_getElem hlt, hentry, Option.map_some, hkey]
    rw [if_neg (by omega), narrow_eq h hindex entries.length 0 entries.length (by omega) (by omega)
      (Nat.zero_le _) (by omega), if_pos hindex, Option.bind_some,
        List.getElem?_eq_getElem hlt, hentry]

end

end SortedEntries
