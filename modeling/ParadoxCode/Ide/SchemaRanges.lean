import ParadoxCode.Hir.Template
import ParadoxCode.Ide.Resolution
import ParadoxCode.Lib.MaxTree
import Mathlib.Data.Nat.Log

/-!
# The schema at a point

`SchemaFactIndex` of `ir_semantic.rs`: the schema facts by the start of their ranges, with a tree of
the ends, so that a query leaves out what ends before its position or starts behind it.
-/

namespace ParadoxCode.Ide

open Hir (SchemaId ScopeState TypeId)
open StableSort (sortByKey)

/-! ## The index -/

structure SchemaFact where
  range : TextRange
  schema : SchemaId
  subtypes : Finset (TypeId × Str)
  state : ScopeState
  deriving DecidableEq

/-- The facts carry their index in the source. The tree is `max_ends`. -/
structure SchemaFactIndex where
  entries : List (Nat × SchemaFact)
  maxEnds : List Nat
  leafBase : Nat

structure SchemaPointQuery where
  position : Nat
  schema : Option SchemaId
  limit : Nat

/-- A fact in the range of the query, and in its schema if it has one. -/
def admits (position : Nat) (schema : Option SchemaId) (fact : SchemaFact) : Bool :=
  schema.all (fun schema => fact.schema == schema) && contains fact.range position

/-- The length of the range. -/
def rangeLen (fact : SchemaFact) : Nat := fact.range.stop - fact.range.start

/-- What a leaf does with the best fact so far. -/
def consider (position : Nat) (schema : Option SchemaId) (best : Option (Nat × SchemaFact))
    (entry : Nat × SchemaFact) : Option (Nat × SchemaFact) :=
  if admits position schema entry.2 ∧ best.all (fun previous => decide
      (toLex (rangeLen entry.2, entry.1) < toLex (rangeLen previous.2, previous.1))) then some entry
  else best

/-- `next_power_of_two` of `usize`. -/
def nextPowerOfTwo (n : Nat) : Nat := 2 ^ Nat.clog 2 n

namespace SchemaFactIndex

def ofFacts (facts : List SchemaFact) : SchemaFactIndex :=
  let entries := sortByKey (fun entry => entry.2.range.start)
    (facts.zipIdx.map fun entry => (entry.2, entry.1))
  let leafBase := nextPowerOfTwo (max 1 entries.length)
  { entries := entries
    maxEnds := MaxTree.build leafBase (entries.map fun entry => entry.2.range.stop)
    leafBase := leafBase }

/-- The bounds are never empty. -/
def visit (index : SchemaFactIndex) (query : SchemaPointQuery) (node start stop : Nat)
    (best : Option (Nat × SchemaFact)) : Option (Nat × SchemaFact) :=
  if query.limit ≤ start ∨ index.maxEnds.getD node 0 < query.position then best
  else if stop - start ≤ 1 then
    match index.entries[start]? with
    | none => best
    | some entry => consider query.position query.schema best entry
  else
    let middle := start + (stop - start) / 2
    index.visit query (node * 2 + 1) middle stop (index.visit query (node * 2) start middle best)
termination_by stop - start

/-- The facts below the limit start at the position or in front of it. -/
def query (index : SchemaFactIndex) (position : Nat) (schema : Option SchemaId) :
    SchemaPointQuery where
  position := position
  schema := schema
  limit := (index.entries.takeWhile fun entry => entry.2.range.start ≤ position).length

/-- What `at` returns, with its index. -/
def factAt (index : SchemaFactIndex) (position : Nat) (schema : Option SchemaId) :
    Option (Nat × SchemaFact) :=
  index.visit (index.query position schema) 1 0 index.leafBase none

end SchemaFactIndex

/-! ## The linear lookup -/

/-- The shortest range that contains the position, the first one in source order on ties. -/
def linearLookup (facts : List SchemaFact) (position : Nat) (schema : Option SchemaId) :
    Option (Nat × SchemaFact) :=
  ((facts.zipIdx.map fun entry => (entry.2, entry.1)).filter fun entry =>
    admits position schema entry.2).argmin fun entry => rangeLen entry.2

/-! ## Least elements -/

section

variable {α κ : Type*} [LinearOrder κ] {key : α → κ} {xs ys : List α}

/-- Distinct keys have one least element, in every order. -/
theorem argmin_perm (h : xs.Perm ys) (hinj : ∀ a ∈ xs, ∀ b ∈ xs, key a = key b → a = b) :
    xs.argmin key = ys.argmin key := by
  cases hxs : xs.argmin key with
  | none =>
    obtain rfl := List.argmin_eq_none.mp hxs
    rw [← h.nil_eq]
    exact hxs.symm
  | some a =>
    have ha := List.argmin_mem hxs
    cases hys : ys.argmin key with
    | none =>
      obtain rfl := List.argmin_eq_none.mp hys
      exact absurd (h.mem_iff.mp ha) List.not_mem_nil
    | some b =>
      have hb := List.argmin_mem hys
      have hle := List.le_of_mem_argmin (h.mem_iff.mpr hb) hxs
      have hge := List.le_of_mem_argmin (h.mem_iff.mp ha) hys
      rw [hinj a ha b (h.mem_iff.mpr hb) (le_antisymm hle hge)]

/-- Where the places go up, the first least element is the least one with its place. -/
theorem argmin_place {place : α → Nat} (h : xs.Pairwise fun a b => place a < place b) :
    xs.argmin key = xs.argmin fun a => toLex (key a, place a) := by
  induction h with
  | nil => rfl
  | @cons a as ha _ ih =>
    rw [List.argmin_cons, List.argmin_cons, ih]
    cases hleast : as.argmin fun a => toLex (key a, place a) with
    | none => rfl
    | some b =>
      have hplace := ha b (List.argmin_mem hleast)
      have hiff : toLex (key b, place b) < toLex (key a, place a) ↔ key b < key a := by
        rw [Prod.Lex.toLex_lt_toLex]
        exact or_iff_left fun hboth => absurd hboth.2 hplace.not_gt
      dsimp only
      rw [if_congr hiff rfl rfl]

end

/-! ## Visits -/

section

variable {facts : List SchemaFact} {position : Nat} {schema : Option SchemaId}
  {best : Option (Nat × SchemaFact)} {entries : List (Nat × SchemaFact)}

theorem contains_bounds {range : TextRange} (h : contains range position = true) :
    range.start ≤ position ∧ position ≤ range.stop := by
  unfold contains at h
  split_ifs at h with hempty
  · obtain rfl := beq_iff_eq.mp h
    exact ⟨le_rfl, hempty.le⟩
  · simp only [Bool.and_eq_true, decide_eq_true_eq] at h
    exact ⟨h.1, h.2.le⟩

theorem foldl_consider_of_not (h : ∀ entry ∈ entries, admits position schema entry.2 = false) :
    entries.foldl (consider position schema) best = best := by
  induction entries with
  | nil => rfl
  | cons entry entries ih =>
    have hskip : consider position schema best entry = best :=
      if_neg fun hadmits => absurd hadmits.1 (by rw [h entry List.mem_cons_self]; decide)
    rw [List.foldl_cons, hskip]
    exact ih fun other hother => h other (List.mem_cons_of_mem entry hother)

/-- To consider all entries is to look for the least one that is admitted. -/
theorem foldl_consider : entries.foldl (consider position schema) none =
    (entries.filter fun entry => admits position schema entry.2).argmin
      fun entry => toLex (rangeLen entry.2, entry.1) := by
  unfold List.argmin
  rw [List.foldl_filter]
  congr 1
  funext best entry
  unfold consider
  cases best with
  | none => simp [List.argAux]
  | some previous =>
    by_cases hadmits : admits position schema entry.2 = true
    · simp [List.argAux, hadmits]
    · simp [hadmits]

namespace SchemaFactIndex

theorem pairwise_entries : (ofFacts facts).entries.Pairwise fun a b =>
    a.2.range.start ≤ b.2.range.start :=
  StableSort.pairwise_sortByKey _ _

/-- What stands behind the limit starts behind the position. -/
theorem start_of_limit {entry : Nat × SchemaFact}
    (hmem : entry ∈ (ofFacts facts).entries.drop ((ofFacts facts).query position schema).limit) :
    position < entry.2.range.start := by
  have hsplit := List.takeWhile_append_dropWhile
    (p := fun entry => decide (entry.2.range.start ≤ position)) (l := (ofFacts facts).entries)
  have hdrop : (ofFacts facts).entries.drop ((ofFacts facts).query position schema).limit =
      (ofFacts facts).entries.dropWhile fun entry => entry.2.range.start ≤ position := by
    conv_lhs => rw [← hsplit]
    exact List.drop_left' rfl
  rw [hdrop] at hmem
  simp only [← Nat.lt_succ_iff] at hmem
  have hsorted : (ofFacts facts).entries.Pairwise fun a b : Nat × SchemaFact =>
    a.2.range.start ≤ b.2.range.start :=
    pairwise_entries
  exact ((StableSort.mem_dropWhile_iff hsorted).mp hmem).2

theorem length_entries_le : (ofFacts facts).entries.length ≤ (ofFacts facts).leafBase :=
  (le_max_right 1 _).trans (Nat.le_pow_clog Nat.one_lt_two _)

/-- No range of an entry below a node ends behind what the node says. -/
theorem stop_le_maxEnds {height node start place : Nat} {entry : Nat × SchemaFact}
    (hnode : 0 < node) (hleaves : node * 2 ^ height = (ofFacts facts).leafBase + start)
    (hbelow : start + 2 ^ height ≤ (ofFacts facts).leafBase) (hstart : start ≤ place)
    (hstop : place < start + 2 ^ height) (hentry : (ofFacts facts).entries[place]? = some entry) :
    entry.2.range.stop ≤ (ofFacts facts).maxEnds.getD node 0 := by
  have hbase : 0 < (ofFacts facts).leafBase := Nat.zero_lt_of_lt (Nat.lt_of_lt_of_le hstop hbelow)
  have hplace := (List.getElem?_eq_some_iff.mp hentry).1
  have hleaf := MaxTree.leaf_le (MaxTree.heaped_build
    ((ofFacts facts).entries.map fun entry => entry.2.range.stop) hbase) hnode hleaves
      hbelow hstart hstop
  rw [MaxTree.getD_build hbase (by rwa [List.length_map]), List.getD_eq_getElem?_getD,
    List.getElem?_map, hentry] at hleaf
  exact hleaf

/-- Nothing that a visit leaves out is in the range of the query. -/
theorem not_admits_of_pruned {height node start : Nat} (hnode : 0 < node)
    (hleaves : node * 2 ^ height = (ofFacts facts).leafBase + start)
    (hbelow : start + 2 ^ height ≤ (ofFacts facts).leafBase)
    (hprune : ((ofFacts facts).query position schema).limit ≤ start ∨
      (ofFacts facts).maxEnds.getD node 0 < position)
    {entry : Nat × SchemaFact}
      (hentry : entry ∈ ((ofFacts facts).entries.drop start).take (2 ^ height)) :
    admits position schema entry.2 = false := by
  rw [Bool.eq_false_iff]
  intro hadmits
  have hbounds := contains_bounds (Bool.and_eq_true_iff.mp hadmits).2
  rcases hprune with hlimit | hends
  · have hmem := List.drop_subset_drop_left _ hlimit (List.mem_of_mem_take hentry)
    exact absurd hbounds.1 (@start_of_limit _ position schema _ hmem).not_ge
  · obtain ⟨place, hplace⟩ := List.mem_iff_getElem?.mp hentry
    have hlt : place < 2 ^ height := by
      by_contra hle
      rw [List.getElem?_eq_none ((List.length_take_le _ _).trans (Nat.le_of_not_lt hle))] at hplace
      exact nomatch hplace
    rw [List.getElem?_take_of_lt hlt, List.getElem?_drop] at hplace
    have hstop := stop_le_maxEnds hnode hleaves hbelow (Nat.le_add_right start place)
      (Nat.add_lt_add_left hlt start) hplace
    omega

/-- A visit considers the entries in its bounds. The induction is on the height of the node. -/
theorem visit_eq {height node start : Nat} (hnode : 0 < node)
    (hleaves : node * 2 ^ height = (ofFacts facts).leafBase + start)
    (hbelow : start + 2 ^ height ≤ (ofFacts facts).leafBase) :
    (ofFacts facts).visit ((ofFacts facts).query position schema) node start
      (start + 2 ^ height) best =
      (((ofFacts facts).entries.drop start).take (2 ^ height)).foldl
        (consider position schema) best := by
  induction height generalizing node start best with
  | zero =>
    rw [visit]
    split_ifs with hprune hleaf
    · exact (foldl_consider_of_not fun _ => not_admits_of_pruned hnode hleaves hbelow hprune).symm
    · cases hentry : (ofFacts facts).entries[start]? with
      | none =>
        rw [List.drop_eq_nil_of_le (List.getElem?_eq_none_iff.mp hentry)]
        rfl
      | some entry =>
        obtain ⟨hlt, rfl⟩ := List.getElem?_eq_some_iff.mp hentry
        rw [List.drop_eq_getElem_cons hlt]
        rfl
    · exact absurd (Nat.add_sub_cancel_left (n := start) (m := 2 ^ 0)).le hleaf
  | succ height ih =>
    have hpos : 0 < 2 ^ height := Nat.two_pow_pos height
    have hhalf : start + (start + 2 ^ (height + 1) - start) / 2 = start + 2 ^ height := by
      rw [Nat.add_sub_cancel_left, pow_succ, Nat.mul_div_cancel _ Nat.zero_lt_two]
    have hstop : start + 2 ^ (height + 1) = start + 2 ^ height + 2 ^ height := by
      rw [pow_succ]
      omega
    rw [visit]
    split_ifs with hprune hleaf
    · exact (foldl_consider_of_not fun _ => not_admits_of_pruned hnode hleaves hbelow hprune).symm
    · rw [Nat.add_sub_cancel_left, pow_succ] at hleaf
      omega
    · rw [pow_succ] at hleaves
      have hleft : node * 2 * 2 ^ height = (ofFacts facts).leafBase + start := by
        rw [← hleaves]
        ring
      have hright : (node * 2 + 1) * 2 ^ height = (ofFacts facts).leafBase +
        (start + 2 ^ height) := by
        rw [← Nat.add_assoc, ← hleaves]
        ring
      dsimp only
      rw [hhalf, hstop, ih (by omega) hright (by omega), ih (by omega) hleft (by omega),
        ← List.foldl_append, pow_succ, Nat.mul_two, List.take_add, List.drop_drop]

/-- The root considers everything. -/
theorem factAt_eq_foldl : (ofFacts facts).factAt position schema =
    (ofFacts facts).entries.foldl (consider position schema) none := by
  have hbase : (ofFacts facts).leafBase = 2 ^ Nat.clog 2 (max 1 (ofFacts facts).entries.length) :=
    rfl
  have hvisit := @visit_eq facts position schema none _ _ 0
    Nat.one_pos ((Nat.one_mul _).trans hbase.symm) ((Nat.zero_add _).trans hbase.symm).le
  rw [Nat.zero_add, List.drop_zero, ← hbase, List.take_of_length_le length_entries_le] at hvisit
  exact hvisit

end SchemaFactIndex

end

/-! ## The index finds what the linear lookup finds -/

/-- The facts with their indices. -/
theorem mem_indexed {facts : List SchemaFact} {entry : Nat × SchemaFact}
    (h : entry ∈ facts.zipIdx.map fun entry => (entry.2, entry.1)) :
    facts[entry.1]? = some entry.2 := by
  obtain ⟨item, hitem, rfl⟩ := List.mem_map.mp h
  exact List.mem_zipIdx_iff_getElem?.mp hitem

theorem pairwise_indexed (facts : List SchemaFact) :
    (facts.zipIdx.map fun entry => (entry.2, entry.1)).Pairwise fun a b : Nat × SchemaFact =>
      a.1 < b.1 := by
  have h := List.pairwise_lt_range' (s := 0) (n := facts.length)
  rw [← List.zipIdx_map_snd, List.pairwise_map] at h
  exact List.pairwise_map.mpr h

/-- **The index equals the linear lookup.** The facts may be nested, equal, empty or overlapping, in
any order. -/
theorem factAt_eq_linearLookup (facts : List SchemaFact) (position : Nat)
    (schema : Option SchemaId) :
    (SchemaFactIndex.ofFacts facts).factAt position schema =
      linearLookup facts position schema := by
  have hplaces := (pairwise_indexed facts).filter fun entry => admits position schema entry.2
  have hperm := (StableSort.perm_sortByKey (fun entry : Nat × SchemaFact => entry.2.range.start)
    (facts.zipIdx.map fun entry => (entry.2, entry.1))).filter fun entry =>
      admits position schema entry.2
  unfold linearLookup
  rw [SchemaFactIndex.factAt_eq_foldl, foldl_consider, argmin_place hplaces]
  refine argmin_perm hperm fun a ha b hb hkeys => ?_
  have ha' := mem_indexed (List.mem_filter.mp (hperm.mem_iff.mp ha)).1
  have hb' := mem_indexed (List.mem_filter.mp (hperm.mem_iff.mp hb)).1
  have hplace : a.1 = b.1 := (Prod.mk.inj (toLex_inj.mp hkeys)).2
  rw [hplace, hb'] at ha'
  exact Prod.ext hplace (Option.some.inj ha').symm

end ParadoxCode.Ide
