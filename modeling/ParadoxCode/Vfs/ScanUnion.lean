import Mathlib.Data.List.Dedup
import ParadoxCode.Vfs.ScanTree

/-!
# Collapsed scan roots

The roots that an earlier one covers are left out of the walk, by their paths and depth bounds. The
walk of the covering root also skips directories by their names. So the scan finds what its roots
find alone as far as the names on the way to a file allow, and it does where the roots that lie
behind a skipped name below another one are apart from it (`scan_union_of_apart`).
-/

namespace ParadoxCode.Vfs

open StableSort (sortByKey perm_sortByKey pairwise_sortByKey)
open GameProfile (parts)

variable {profile : GameProfile} {filters : WorkspaceScanFilters} {limits : WorkspaceScanLimits}
  {directory : Directory}

/-! ## What is taken of a list of files -/

/-- The file is taken under a logical path. -/
structure Takes (profile : GameProfile) (filters : WorkspaceScanFilters) (path : List Str)
    (logical : Str) : Prop where
  notIgnored : filters.ignoresFile (relative path) = false
  allowed : profile.allowsScanFile (relative path) = true
  parses : parseLogicalPath (relative path) = .ok logical

/-- `seen` holds the logical paths of the output, each once. -/
structure Scan.Consistent (scan : Scan) : Prop where
  seen : ∀ logical, logical ∈ scan.seen ↔ logical ∈ scan.output.map Prod.fst
  nodup : (scan.output.map Prod.fst).Nodup

theorem Scan.consistent_start : Scan.start.Consistent :=
  ⟨fun _ => Iff.rfl, List.nodup_nil⟩

variable {path : List Str}

theorem collectFile_spec {scan after : Scan} (hscan : scan.Consistent)
    (h : collectFile profile filters limits scan path = .ok after) :
    after.Consistent ∧ ∀ logical, logical ∈ after.output.map Prod.fst ↔
      logical ∈ scan.output.map Prod.fst ∨ Takes profile filters path logical := by
  unfold collectFile at h
  split at h
  · rename_i hignored
    cases h
    refine ⟨hscan, fun logical => ⟨.inl, ?_⟩⟩
    rintro (hmem | htakes)
    · exact hmem
    · exact absurd htakes.notIgnored (by simp [hignored])
  rename_i hignored
  split at h
  · cases h
  simp only at h
  split at h
  · rename_i hallowed
    cases h
    refine ⟨⟨hscan.seen, hscan.nodup⟩, fun logical => ⟨.inl, ?_⟩⟩
    rintro (hmem | htakes)
    · exact hmem
    · exact absurd htakes.allowed (by simpa using hallowed)
  rename_i hallowed
  split at h
  · cases h
  rename_i found hparse
  have htakes : ∀ logical, Takes profile filters path logical ↔ logical = found := by
    intro logical
    constructor
    · intro htakes
      exact (Except.ok.inj (hparse.symm.trans htakes.parses)).symm
    · rintro rfl
      exact ⟨by simpa using hignored, by simpa using hallowed, hparse⟩
  split at h
  · rename_i hseen
    cases h
    refine ⟨⟨hscan.seen, hscan.nodup⟩, fun logical => ⟨.inl, ?_⟩⟩
    rintro (hmem | hfile)
    · exact hmem
    · rw [(htakes logical).mp hfile]
      exact (hscan.seen found).mp hseen
  · rename_i hnew
    cases h
    have hfresh : found ∉ scan.output.map Prod.fst := fun hmem => hnew ((hscan.seen found).mpr hmem)
    refine ⟨⟨?_, ?_⟩, ?_⟩
    · intro logical
      simp only [List.mem_cons, List.map_append, List.map_cons, List.map_nil, List.mem_append,
        List.not_mem_nil, or_false]
      rw [hscan.seen logical, or_comm]
    · rw [List.map_append, List.nodup_append]
      refine ⟨hscan.nodup, List.nodup_singleton _, ?_⟩
      rintro logical hlogical other hother rfl
      rw [List.map_cons, List.map_nil, List.mem_singleton] at hother
      rw [hother] at hlogical
      exact hfresh hlogical
    · intro logical
      rw [htakes]
      simp

theorem foldlM_collectFile_spec (paths : List (List Str)) : ∀ {scan after : Scan}, scan.Consistent →
    paths.foldlM (collectFile profile filters limits) scan = .ok after →
      after.Consistent ∧ ∀ logical, logical ∈ after.output.map Prod.fst ↔
        logical ∈ scan.output.map Prod.fst ∨ ∃ path ∈ paths,
          Takes profile filters path logical := by
  induction paths with
  | nil =>
    intro scan after hscan h
    cases h
    exact ⟨hscan, fun logical => by simp⟩
  | cons path paths ih =>
    intro scan after hscan h
    rw [List.foldlM_cons] at h
    rcases hfile : collectFile profile filters limits scan path with error | next
    · rw [hfile] at h
      cases h
    · rw [hfile] at h
      obtain ⟨hnext, hmem⟩ := collectFile_spec hscan hfile
      obtain ⟨hafter, hmem'⟩ := ih hnext h
      refine ⟨hafter, fun logical => ?_⟩
      rw [hmem', hmem]
      simp [or_assoc]

/-! ## The way to a file -/

theorem mem_parents_append (before after : Str) : before ∈ parents (before ++ '/' :: after) := by
  induction before with
  | nil => simp [parents]
  | cons c before ih =>
    have hbelow : c :: before ∈ (parents (before ++ '/' :: after)).map (c :: ·) :=
      List.mem_map_of_mem ih
    rw [List.cons_append, parents]
    split
    · exact List.mem_cons_of_mem _ hbelow
    · exact hbelow

theorem intercalate_append {α : Type} {separator : List α} {left right : List (List α)}
    (hleft : left ≠ []) (hright : right ≠ []) :
    separator.intercalate (left ++ right) = separator.intercalate left ++
      (separator ++ separator.intercalate right) := by
  induction left with
  | nil => exact absurd rfl hleft
  | cons first left ih =>
    cases left with
    | nil =>
      cases right with
      | nil => exact absurd rfl hright
      | cons next right => simp [List.intercalate]
    | cons second left =>
      have ih := ih (by simp)
      simp only [List.cons_append, List.intercalate, List.intersperse, List.flatten_cons] at ih ⊢
      rw [ih]
      simp

theorem relative_append {current below : List Str} (hcurrent : current ≠ []) (hbelow : below ≠ []) :
    relative (current ++ below) = relative current ++ '/' :: relative below := by
  unfold relative
  rw [intercalate_append hcurrent hbelow]
  simp

/-- A file that is not ignored has no ignored directory above it. -/
theorem not_ignoresDirectory {current below : List Str} (hcurrent : current ≠ [])
    (hbelow : below ≠ []) (h : filters.ignoresFile (relative (current ++ below)) = false) :
    filters.ignoresDirectory (relative current) = false := by
  unfold WorkspaceScanFilters.ignoresFile at h
  rw [Bool.or_eq_false_iff] at h
  rw [relative_append hcurrent hbelow] at h
  have hparents := List.any_eq_false.mp h.2 (relative current) (mem_parents_append _ _)
  simpa using hparents

/-- No directory on the way has a name that is skipped. -/
def Open (below : List Str) : Prop := ∀ name ∈ below.dropLast,
    ignoredWorkspaceDirectory name = false

theorem opens_iff {walk : Walk} (below : List Str) : ∀ {depth : Nat} {current : List Str},
    current.length = depth → walk.rootDepth ≤ depth → depth + below.length ≤ limits.maxDepth + 1 →
    filters.ignoresFile (relative (current ++ below)) = false →
      (Opens filters limits walk depth current below ↔ below ≠ [] ∧ Open below ∧
        ∀ maxDepth, walk.maxRelativeDepth = some maxDepth →
          below.length = 1 ∨ depth - walk.rootDepth + (below.length - 1) ≤ maxDepth) := by
  induction below with
  | nil =>
    intro depth current hlength hroot hlimit hignored
    simp [Opens]
  | cons name below ih =>
    intro depth current hlength hroot hlimit hignored
    cases below with
    | nil => simp [Opens, Open]
    | cons next below =>
      have hnotIgnored : filters.ignoresDirectory (relative (current ++ [name])) = false := by
        have hbelow : filters.ignoresFile (relative ((current ++ [name]) ++ (next :: below))) =
          false := by
          simpa using hignored
        exact not_ignoresDirectory (by simp) (by simp) hbelow
      have hdeeper : (current ++ [name]).length = depth + 1 := by simp [hlength]
      have hrest := ih hdeeper (by omega) (by simp only [List.length_cons] at hlimit ⊢; omega)
        (by simpa using hignored)
      have hdepth : depth < limits.maxDepth := by
        simp only [List.length_cons] at hlimit
        omega
      have henters : enters filters limits walk depth (current ++ [name]) name = true ↔
          ignoredWorkspaceDirectory name = false ∧
            ∀ maxDepth, walk.maxRelativeDepth = some maxDepth →
            depth - walk.rootDepth < maxDepth := by
        unfold enters
        simp [hnotIgnored, hdepth, Option.all_eq_true, and_comm]
      rw [opens_cons filters limits walk depth current name (by simp), hrest, henters]
      have hopen : Open (name :: next :: below) ↔
          ignoredWorkspaceDirectory name = false ∧ Open (next :: below) := by
        simp [Open]
      rw [hopen]
      simp only [ne_eq, reduceCtorEq, not_false_eq_true, true_and, List.length_cons]
      constructor
      · rintro ⟨⟨hname, hbound⟩, hopen, hdeep⟩
        refine ⟨⟨hname, hopen⟩, fun maxDepth hmax => .inr ?_⟩
        have := hbound maxDepth hmax
        have := hdeep maxDepth hmax
        omega
      · rintro ⟨⟨hname, hopen⟩, hdeep⟩
        refine ⟨⟨hname, fun maxDepth hmax => ?_⟩, hopen, fun maxDepth hmax => ?_⟩
        · have := hdeep maxDepth hmax
          omega
        · have := hdeep maxDepth hmax
          omega

/-! ## Parsed roots -/

/-- The components of a path behind `parse`. -/
def Plain (component : Str) : Prop := component ≠ [] ∧ '/' ∉ component ∧ '\\' ∉ component

theorem plain_pushComponent {path component : Str} {pushed before : List Str}
    (hbefore : ∀ part ∈ before, Plain part) (hslash : '/' ∉ component)
    (hbackslash : '\\' ∉ component)
    (h : pushComponent path before component = .ok pushed) : ∀ part ∈ pushed, Plain part := by
  unfold pushComponent at h
  split at h
  · cases h
    exact hbefore
  rename_i hempty
  split at h
  · split at h
    · cases h
    · cases h
      intro part hpart
      exact hbefore part (List.dropLast_subset _ hpart)
  · cases h
    intro part hpart
    rcases List.mem_append.mp hpart with hpart | hpart
    · exact hbefore part hpart
    · rw [List.mem_singleton.mp hpart]
      exact ⟨fun h => hempty (.inl h), hslash, hbackslash⟩

theorem plain_foldlM {path : Str} (texts : List Str) : ∀ {before pushed : List Str},
    (∀ part ∈ before, Plain part) → (∀ component ∈ texts, '/' ∉ component ∧ '\\' ∉ component) →
      texts.foldlM (pushComponent path) before = .ok pushed → ∀ part ∈ pushed, Plain part := by
  induction texts with
  | nil =>
    intro before pushed hbefore htexts h
    cases h
    exact hbefore
  | cons component texts ih =>
    intro before pushed hbefore htexts h
    rw [List.foldlM_cons] at h
    obtain ⟨hslash, hbackslash⟩ := htexts component List.mem_cons_self
    rcases hpush : pushComponent path before component with error | next
    · rw [hpush] at h
      cases h
    · rw [hpush] at h
      exact ih (plain_pushComponent hbefore hslash hbackslash hpush)
        (fun other hother => htexts other (List.mem_cons_of_mem _ hother)) h

/-- A parsed path is made of its components. -/
theorem parse_spec {path parsed : Str} (h : parseLogicalPath path = .ok parsed) :
    parsed = ['/'].intercalate (parts parsed) ∧ ∀ part ∈ parts parsed, Plain part := by
  unfold parseLogicalPath at h
  dsimp only at h
  generalize hnormalized : (path.map fun c => if c = '\\' then '/' else c) = normalized at h
  rcases hfold : (components (normalized.dropWhile fun c => c == '/')).foldlM (pushComponent path)
    [] with error | pushed
  · rw [hfold] at h
    cases h
  rw [hfold] at h
  have hparsed : parsed = ['/'].intercalate pushed := by
    simp only [bind, Except.bind] at h
    split at h
    · cases h
    · cases h
      rfl
  have hplain : ∀ part ∈ pushed, Plain part := by
    apply plain_foldlM _ _ _ hfold
    · simp
    · intro component hcomponent
      refine ⟨slash_not_mem_components hcomponent, fun hbackslash => ?_⟩
      have hmem := (mem_components (by decide)).mp ⟨component, hcomponent, hbackslash⟩
      have hmem := (List.dropWhile_sublist _).subset hmem
      rw [← hnormalized] at hmem
      obtain ⟨c, -, hc⟩ := List.mem_map.mp hmem
      split at hc
      · exact absurd hc (by decide)
      · contradiction
  have hparts : parts parsed = pushed := by
    rw [hparsed]
    unfold parts
    by_cases hne : pushed = []
    · subst hne
      rfl
    · rw [components_intercalate (fun part hpart => (hplain part hpart).2.1) hne]
      exact List.filter_eq_self.mpr fun part hpart => by simpa using (hplain part hpart).1
  rw [hparts]
  exact ⟨hparsed, hplain⟩

theorem backslash_not_mem_intercalate {parts : List Str} (h : ∀ part ∈ parts, Plain part) :
    '\\' ∉ (['/'].intercalate parts) := by
  induction parts with
  | nil => simp
  | cons first parts ih =>
    have hfirst := (h first List.mem_cons_self).2.2
    have ih := ih fun part hpart => h part (List.mem_cons_of_mem _ hpart)
    cases parts with
    | nil => simpa [List.intercalate] using hfirst
    | cons second parts =>
      have happend : ['/'].intercalate ([first] ++ (second :: parts)) =
          ['/'].intercalate [first] ++ (['/'] ++ ['/'].intercalate (second :: parts)) :=
        intercalate_append (by simp) (by simp)
      rw [List.singleton_append] at happend
      rw [happend]
      simp only [List.mem_append, not_or]
      exact ⟨by simpa [List.intercalate] using hfirst, by decide, ih⟩

/-- The filters see a parsed root as it is. -/
theorem relative_parts {path parsed : Str} (h : parseLogicalPath path = .ok parsed) :
    relative (parts parsed) = parsed := by
  obtain ⟨hparsed, hplain⟩ := parse_spec h
  have hnone := backslash_not_mem_intercalate hplain
  unfold relative
  rw [← hparsed] at hnone ⊢
  calc (parsed.map fun c => if c = '\\' then '/' else c) = parsed.map id := by
        apply List.map_congr_left
        intro c hc
        rw [if_neg]
        · rfl
        · rintro rfl
          exact hnone hc
    _ = parsed := List.map_id parsed

theorem not_ignoresDirectory_nil : filters.ignoresDirectory [] = false := by
  unfold WorkspaceScanFilters.ignoresDirectory
  rw [List.any_eq_false]
  intro pattern _
  unfold patternMatches
  simp [trimSlashes, trimEndSlashes]

/-! ## The files of a root -/

theorem Tree.find_append (before after : List Str) : ∀ tree : Tree,
    tree.find (before ++ after) = (tree.find before).bind fun found => found.find after := by
  induction before with
  | nil =>
    intro tree
    cases after <;> simp [Tree.find]
  | cons name before ih =>
    intro tree
    cases tree with
    | dir entries =>
      simp only [List.cons_append, Tree.find]
      cases entries.get name with
      | none => rfl
      | some tree => exact ih tree
    | file => simp [Tree.find]
    | other => simp [Tree.find]

theorem Entries.Distinct.get {entries : Entries} (h : entries.Distinct) {name : Str} {tree : Tree}
    (hget : entries.get name = some tree) : tree.Distinct := by
  induction entries using Entries.rec (motive_1 := fun _ => True) with
  | file => trivial
  | other => trivial
  | dir entries ih => trivial
  | nil => simp [Entries.get] at hget
  | cons other found rest _ ih =>
    rw [Entries.get] at hget
    split at hget
    · cases hget
      exact h.2.1
    · exact ih h.2.2 hget

theorem Tree.Distinct.find (path : List Str) : ∀ {tree found : Tree}, tree.Distinct →
    tree.find path = some found → found.Distinct := by
  induction path with
  | nil =>
    intro tree found h hfind
    cases tree <;> cases hfind <;> exact h
  | cons name path ih =>
    intro tree found h hfind
    cases tree with
    | dir entries =>
      obtain ⟨next, hget, hfind⟩ := Option.bind_eq_some_iff.mp hfind
      exact ih (Entries.Distinct.get h hget) hfind
    | file => cases hfind
    | other => cases hfind

theorem Directory.distinct_find (directory : Directory) {entries : Entries}
    (h : directory.find path = some (.dir entries)) : entries.Distinct := by
  have hroot : (Tree.dir directory.entries).Distinct := directory.distinct
  exact hroot.find path h

/-- The root leads to a path below itself, within its depth bound and past no skipped name. -/
def Leads (profile : GameProfile) (scanRoot : Str) (path : List Str) : Prop :=
  ∃ below, path = parts scanRoot ++ below ∧ below ≠ [] ∧ Open below ∧
    ∀ maxDepth, profile.scanRootMaxDepth scanRoot = some maxDepth → below.length - 1 ≤ maxDepth

/-- The files are no deeper than the limits allow. -/
def WithinLimits (limits : WorkspaceScanLimits) (directory : Directory) : Prop :=
  ∀ path, directory.find path = some .file → path.length ≤ limits.maxDepth + 1

variable {raw : Str}

theorem mem_rootFiles_iff (hwithin : WithinLimits limits directory) {scanRoot : Str}
    (hroot : parseLogicalPath raw = .ok scanRoot)
    (hignored : filters.ignoresFile (relative path) = false) :
    path ∈ rootFiles profile filters limits directory scanRoot ↔
      directory.find path = some .file ∧ Leads profile scanRoot path := by
  set parts := parts scanRoot with hparts
  have hopens : ∀ {below : List Str}, path = parts ++ below → directory.find path = some .file →
      (Opens filters limits ⟨parts.length, profile.scanRootMaxDepth scanRoot⟩
        parts.length parts below ↔ below ≠ [] ∧ Open below ∧ ∀ maxDepth,
        profile.scanRootMaxDepth scanRoot = some maxDepth →
          below.length - 1 ≤ maxDepth) := by
    intro below hpath hfind
    have hlength := hwithin path hfind
    rw [hpath, List.length_append] at hlength
    rw [opens_iff below rfl (Nat.le_refl parts.length) hlength (hpath ▸ hignored)]
    refine and_congr_right fun hne => and_congr_right fun _ => forall_congr' fun maxDepth =>
      imp_congr_right fun _ => ?_
    have hpos := List.length_pos_iff.mpr hne
    simp only [Nat.sub_self, Nat.zero_add]
    omega
  have hfindAppend : ∀ below, directory.find (parts ++ below) =
      (directory.find parts).bind fun found => found.find below :=
        fun below => Tree.find_append _ _ _
  unfold rootFiles
  constructor
  · intro hmem
    split at hmem
    · exact absurd hmem List.not_mem_nil
    simp only [← hparts] at hmem
    split at hmem
    · exact absurd hmem List.not_mem_nil
    split at hmem
    · rename_i entries hentries
      have hdistinct : entries.Distinct := directory.distinct_find hentries
      obtain ⟨below, hpath, hopen, hfind⟩ :=
        (mem_reached_iff filters limits _ entries _ _ path hdistinct).mp hmem
      have hfile : directory.find path = some .file := by
        rw [hpath, hfindAppend, hentries]
        exact hfind
      exact ⟨hfile, below, hpath, (hopens hpath hfile).mp hopen⟩
    · exact absurd hmem List.not_mem_nil
  · rintro ⟨hfile, below, hpath, hleads⟩
    have hopen := (hopens hpath hfile).mpr hleads
    have hdirectory : filters.ignoresDirectory scanRoot = false := by
      by_cases hempty : parts = []
      · have hscanRoot := relative_parts hroot
        rw [← hparts, hempty] at hscanRoot
        rw [← hscanRoot]
        exact not_ignoresDirectory_nil
      · rw [← relative_parts hroot]
        exact not_ignoresDirectory hempty hleads.1 (hpath ▸ hignored)
    have hdepth : ¬ limits.maxDepth < parts.length := by
      have hlength := hwithin path hfile
      have hpos := List.length_pos_iff.mpr hleads.1
      rw [hpath, List.length_append, ← hparts] at hlength
      omega
    rw [if_neg (by simp [hdirectory])]
    simp only [← hparts]
    rw [if_neg hdepth]
    rw [hpath, hfindAppend] at hfile
    obtain ⟨found, hfound, hfile⟩ := Option.bind_eq_some_iff.mp hfile
    obtain ⟨first, rest, rfl⟩ := List.exists_cons_of_ne_nil hleads.1
    cases found with
    | file => simp [Tree.find] at hfile
    | other => simp [Tree.find] at hfile
    | dir entries =>
      rw [hfound]
      have hdistinct : entries.Distinct := directory.distinct_find hfound
      exact (mem_reached_iff filters limits _ entries _ _ path hdistinct).mpr
        ⟨_, hpath, hopen, hfile⟩

/-! ## Covered roots -/

variable {root : Str}

theorem remainderBelow_eq_some_iff {path remainder : Str} :
    GameProfile.remainderBelow root path = some remainder ↔ path = root ++ '/' :: remainder := by
  unfold GameProfile.remainderBelow
  constructor
  · intro h
    split at h
    · rename_i hfront
      obtain ⟨rest, rfl⟩ := List.isPrefixOf_iff_prefix.mp hfront
      cases h
      simp
    · cases h
  · rintro rfl
    rw [if_pos]
    · simp
    · rw [List.isPrefixOf_iff_prefix]
      exact ⟨remainder, by simp⟩

theorem parts_append (before after : Str) :
    parts (before ++ '/' :: after) = parts before ++ parts after := by
  unfold parts components
  rw [List.splitOn_append_cons_self, List.filter_append]

/-- A root covers another one: it is that one, or above it and reaches as deep below it. -/
theorem covers_iff {parent : Str} : covers profile parent root = true ↔ parent = root ∨
    ∃ remainder, root = parent ++ '/' :: remainder ∧ ∀ parentMax,
      profile.scanRootMaxDepth parent = some parentMax →
      ∃ rootMax, profile.scanRootMaxDepth root = some rootMax ∧
        (parts remainder).length + rootMax ≤ parentMax := by
  unfold covers
  rw [Bool.or_eq_true, decide_eq_true_eq]
  apply or_congr_right
  cases hremainder : GameProfile.remainderBelow parent root with
  | none =>
    simp only [Bool.false_eq_true, false_iff, not_exists, not_and]
    rintro remainder hroot
    rw [remainderBelow_eq_some_iff.mpr hroot] at hremainder
    cases hremainder
  | some remainder =>
    have hroot := remainderBelow_eq_some_iff.mp hremainder
    have hunique : ∀ other, root = parent ++ '/' :: other ↔ other = remainder := by
      intro other
      rw [← remainderBelow_eq_some_iff, hremainder, Option.some.injEq, eq_comm]
    simp only [hunique, exists_eq_left]
    cases profile.scanRootMaxDepth parent with
    | none => simp
    | some parentMax =>
      cases profile.scanRootMaxDepth root with
      | none => simp
      | some rootMax => simp

theorem covers_trans {a b c : Str} (hab : covers profile a b = true)
    (hbc : covers profile b c = true) : covers profile a c = true := by
  rw [covers_iff] at *
  rcases hab with rfl | ⟨x, rfl, hx⟩
  · exact hbc
  rcases hbc with rfl | ⟨y, rfl, hy⟩
  · exact .inr ⟨x, rfl, hx⟩
  refine .inr ⟨x ++ '/' :: y, by simp, fun maxA hA => ?_⟩
  obtain ⟨maxB, hB, hle⟩ := hx maxA hA
  obtain ⟨maxC, hC, hle'⟩ := hy maxB hB
  refine ⟨maxC, hC, ?_⟩
  rw [parts_append, List.length_append]
  omega

theorem covers_self (root : Str) : covers profile root root = true := covers_iff.mpr (.inl rfl)

/-- A root above another one is sorted before it. -/
theorem le_of_covers {parent : Str} (h : covers profile parent root = true) : parent ≤ root := by
  rcases covers_iff.mp h with rfl | ⟨remainder, rfl, -⟩
  · exact le_refl parent
  · have hlt : parent ++ [] < parent ++ '/' :: remainder :=
      List.append_left_lt (List.nil_lt_cons _ _)
    rw [List.append_nil] at hlt
    exact le_of_lt hlt

/-- The roots kept of some roots cover them, and no root covers a kept one. -/
structure Kept (profile : GameProfile) (kept roots : List Str) : Prop where
  subset : ∀ root ∈ kept, root ∈ roots
  covered : ∀ root ∈ roots, ∃ parent ∈ kept, covers profile parent root = true
  uncovered : ∀ root ∈ kept, ∀ parent ∈ roots, covers profile parent root = true → parent = root

theorem kept_collapse (roots : List Str) : ∀ {kept done : List Str},
    (done ++ roots).Pairwise (· < ·) →
    Kept profile kept done → Kept profile (collapse profile kept roots) (done ++ roots) := by
  induction roots with
  | nil =>
    intro kept done hsorted h
    rw [List.append_nil]
    exact h
  | cons root roots ih =>
    intro kept done hsorted h
    have hbefore : ∀ other ∈ done, other < root := by
      intro other hother
      exact (List.pairwise_append.mp hsorted).2.2 other hother root List.mem_cons_self
    rw [List.append_cons] at hsorted ⊢
    rw [collapse]
    split
    · rename_i hany
      obtain ⟨parent, hparent, hcovers⟩ := List.any_eq_true.mp hany
      apply ih hsorted
      refine ⟨fun other hother => List.mem_append_left _ (h.subset other hother), ?_, ?_⟩
      · intro other hother
        rcases List.mem_append.mp hother with hother | hother
        · exact h.covered other hother
        · rw [List.mem_singleton.mp hother]
          exact ⟨parent, hparent, hcovers⟩
      · intro other hother above habove hcovers
        rcases List.mem_append.mp habove with habove | habove
        · exact h.uncovered other hother above habove hcovers
        · rw [List.mem_singleton.mp habove] at hcovers
          exact absurd (le_of_covers hcovers) (not_le.mpr (hbefore other (h.subset other hother)))
    · rename_i hany
      apply ih hsorted
      refine ⟨?_, ?_, ?_⟩
      · intro other hother
        rcases List.mem_append.mp hother with hother | hother
        · exact List.mem_append_left _ (h.subset other hother)
        · exact List.mem_append_right _ hother
      · intro other hother
        rcases List.mem_append.mp hother with hother | hother
        · obtain ⟨parent, hparent, hcovers⟩ := h.covered other hother
          exact ⟨parent, List.mem_append_left _ hparent, hcovers⟩
        · exact ⟨other, List.mem_append_right _ hother, covers_self other⟩
      · intro other hother above habove hcovers
        rcases List.mem_append.mp hother with hother | hother
        · rcases List.mem_append.mp habove with habove | habove
          · exact h.uncovered other hother above habove hcovers
          · rw [List.mem_singleton.mp habove] at hcovers
            exact absurd (le_of_covers hcovers) (not_le.mpr (hbefore other (h.subset other hother)))
        · obtain rfl := List.mem_singleton.mp hother
          rcases List.mem_append.mp habove with habove | habove
          · obtain ⟨parent, hparent, hcovers'⟩ := h.covered above habove
            exact (hany (List.any_eq_true.mpr ⟨parent, hparent,
              covers_trans hcovers' hcovers⟩)).elim
          · exact List.mem_singleton.mp habove

theorem pairwise_sortRoots (roots : List Str) : (sortRoots roots).Pairwise (· < ·) := by
  have hle := (pairwise_sortByKey (id : Str → Str) roots).sublist (List.dedup_sublist _)
  have hne : (sortRoots roots).Nodup := List.nodup_dedup _
  exact hle.imp₂ (fun _ _ hle hne => lt_of_le_of_ne hle hne) hne

theorem mem_sortRoots {roots : List Str} : root ∈ sortRoots roots ↔ root ∈ roots := by
  unfold sortRoots
  rw [List.mem_dedup, (perm_sortByKey id roots).mem_iff]

theorem kept_sortRoots (roots : List Str) : Kept profile (collapse profile [] (sortRoots roots))
    (sortRoots roots) := by
  have hnone : Kept profile [] [] := ⟨by simp, by simp, by simp⟩
  exact kept_collapse _ (pairwise_sortRoots roots) hnone

/-- The collapsed roots are those that no other root covers. -/
theorem mem_collapse_iff {roots : List Str} :
    root ∈ collapse profile [] (sortRoots roots) ↔
      root ∈ roots ∧ ∀ parent ∈ roots, covers profile parent root = true → parent = root := by
  have hkept : Kept profile (collapse profile [] (sortRoots roots)) (sortRoots roots) :=
    kept_sortRoots roots
  constructor
  · intro h
    refine ⟨mem_sortRoots.mp (hkept.subset root h), fun parent hparent => ?_⟩
    exact hkept.uncovered root h parent (mem_sortRoots.mpr hparent)
  · rintro ⟨hroot, huncovered⟩
    obtain ⟨parent, hparent, hcovers⟩ := hkept.covered root (mem_sortRoots.mpr hroot)
    rwa [huncovered parent (mem_sortRoots.mp (hkept.subset parent hparent)) hcovers] at hparent

/-! ## The scan and its roots alone -/

/-- The parsed scan roots. -/
def IsRoot (profile : GameProfile) (root : Str) : Prop :=
  ∃ raw ∈ profile.scanRoots, parseLogicalPath raw = .ok root

/-- A root that no other one covers. -/
def Uncovered (profile : GameProfile) (root : Str) : Prop :=
  IsRoot profile root ∧ ∀ parent, IsRoot profile parent →
    covers profile parent root = true → parent = root

theorem parseRoot_eq_ok_iff : parseRoot raw = .ok root ↔ parseLogicalPath raw = .ok root := by
  unfold parseRoot
  cases parseLogicalPath raw <;> simp [Except.mapError]

theorem mem_mapM_parseRoot (raws : List Str) : ∀ {roots : List Str},
    raws.mapM parseRoot = .ok roots →
    ∀ root, root ∈ roots ↔ ∃ raw ∈ raws, parseLogicalPath raw = .ok root := by
  induction raws with
  | nil =>
    intro roots h root
    cases h
    simp
  | cons raw raws ih =>
    intro roots h root
    rw [List.mapM_cons] at h
    rcases hraw : parseRoot raw with error | first
    · rw [hraw] at h
      cases h
    rcases hraws : raws.mapM parseRoot with error | rest
    · rw [hraw, hraws] at h
      cases h
    rw [hraw, hraws] at h
    cases h
    have hfirst := parseRoot_eq_ok_iff.mp hraw
    simp only [List.mem_cons, exists_eq_or_imp, ih hraws root, hfirst, Except.ok.injEq,
      @eq_comm _ root first]

variable {output : List (Str × List Str)}

/-- What the scan returns: the files that it takes and an uncovered root leads to. -/
theorem mem_collect_iff (hwithin : WithinLimits limits directory)
    (h : collectWhitelistedFiles profile filters limits directory = .ok output) :
    (output.map Prod.fst).Nodup ∧ ∀ logical, logical ∈ output.map Prod.fst ↔
      ∃ path, directory.find path = some .file ∧ Takes profile filters path logical ∧
        ∃ root, Uncovered profile root ∧ Leads profile root path := by
  unfold collectWhitelistedFiles at h
  rcases hroots : profile.scanRoots.mapM parseRoot with error | roots
  · rw [hroots] at h
    cases h
  rw [hroots] at h
  have hmem := mem_mapM_parseRoot profile.scanRoots hroots
  rcases hscan : (collapse profile [] (sortRoots roots)).foldlM
    (collectRoot profile filters limits directory) .start with error | scan
  · simp only [bind, Except.bind, hscan] at h
    cases h
  simp only [bind, Except.bind, hscan] at h
  cases h
  rw [foldlM_collectRoot] at hscan
  obtain ⟨hconsistent, houtput⟩ := foldlM_collectFile_spec _ Scan.consistent_start hscan
  refine ⟨hconsistent.nodup, fun logical => ?_⟩
  rw [houtput logical]
  have huncovered : ∀ root, root ∈ collapse profile [] (sortRoots roots) ↔
    Uncovered profile root := by
    intro root
    rw [mem_collapse_iff]
    unfold Uncovered IsRoot
    simp only [hmem]
  simp only [Scan.start, List.map_nil, List.not_mem_nil, false_or, List.mem_flatMap, huncovered]
  constructor
  · rintro ⟨path, ⟨root, hroot, hpath⟩, htakes⟩
    obtain ⟨raw, -, hraw⟩ := hroot.1
    obtain ⟨hfile, hleads⟩ := (mem_rootFiles_iff hwithin hraw htakes.notIgnored).mp hpath
    exact ⟨path, hfile, htakes, root, hroot, hleads⟩
  · rintro ⟨path, hfile, htakes, root, hroot, hleads⟩
    obtain ⟨raw, -, hraw⟩ := hroot.1
    exact ⟨path, ⟨root, hroot, (mem_rootFiles_iff hwithin hraw htakes.notIgnored).mpr
      ⟨hfile, hleads⟩⟩, htakes⟩

/-- A file that the filters and the extensions let through, under a logical path. -/
structure Offered (profile : GameProfile) (filters : WorkspaceScanFilters) (directory : Directory)
    (path : List Str)
    (logical : Str) : Prop where
  file : directory.find path = some .file
  notIgnored : filters.ignoresFile (relative path) = false
  extension : profile.allowsExtension (relative path) = true
  parses : parseLogicalPath (relative path) = .ok logical

/-- A scan root whose whitelist has the file. -/
def Allows (profile : GameProfile) (raw : Str) (path : List Str) : Prop :=
  raw ∈ profile.scanRoots ∧ profile.allowsProfilePathInRoot raw (relative path) = true

theorem takes_iff {logical : Str} (hfile : directory.find path = some .file) :
    Takes profile filters path logical ↔
      Offered profile filters directory path logical ∧ ∃ raw, Allows profile raw path := by
  unfold Allows
  constructor
  · intro h
    have hallowed := h.allowed
    unfold GameProfile.allowsScanFile GameProfile.allowsProfilePath at hallowed
    rw [Bool.and_eq_true, List.any_eq_true] at hallowed
    exact ⟨⟨hfile, h.notIgnored, hallowed.2, h.parses⟩, hallowed.1⟩
  · rintro ⟨hoffered, hallows⟩
    refine ⟨hoffered.notIgnored, ?_, hoffered.parses⟩
    unfold GameProfile.allowsScanFile GameProfile.allowsProfilePath
    rw [Bool.and_eq_true, List.any_eq_true]
    exact ⟨hallows, hoffered.extension⟩

/-- What the scan of one root returns: the files that the root allows and leads to. -/
theorem mem_collect_alone_iff (hwithin : WithinLimits limits directory)
    (hraw : raw ∈ profile.scanRoots)
    (h : collectWhitelistedFiles (profile.alone raw) filters limits directory = .ok output)
    (logical : Str) :
    logical ∈ output.map Prod.fst ↔ ∃ path, Offered profile filters directory path logical ∧
      Allows profile raw path ∧ ∃ root, parseLogicalPath raw = .ok root ∧
      Leads profile root path := by
  rw [(mem_collect_iff hwithin h).2]
  have hroot : ∀ root, Uncovered (profile.alone raw) root ↔ parseLogicalPath raw = .ok root := by
    intro root
    unfold Uncovered IsRoot GameProfile.alone
    simp only [List.mem_singleton, exists_eq_left]
    constructor
    · exact fun h => h.1
    · intro h
      exact ⟨h, fun parent hparent _ => Except.ok.inj (hparent.symm.trans h)⟩
  refine exists_congr fun path => ?_
  simp only [hroot]
  constructor
  · rintro ⟨hfile, htakes, hleads⟩
    obtain ⟨hoffered, other, hother, hallows⟩ := (takes_iff hfile).mp htakes
    obtain rfl := List.mem_singleton.mp hother
    exact ⟨⟨hfile, hoffered.notIgnored, hoffered.extension, hoffered.parses⟩,
      ⟨hraw, hallows⟩, hleads⟩
  · rintro ⟨hoffered, hallows, hleads⟩
    refine ⟨hoffered.file, (takes_iff hoffered.file).mpr ⟨?_, raw, ?_⟩, hleads⟩
    · exact ⟨hoffered.file, hoffered.notIgnored, hoffered.extension, hoffered.parses⟩
    · exact ⟨List.mem_singleton_self raw, hallows.2⟩

/-- The scan returns each logical path once, and the paths that its roots return alone. -/
def ReturnsUnion (profile : GameProfile) (filters : WorkspaceScanFilters)
    (limits : WorkspaceScanLimits) (directory : Directory) : Prop :=
  ∃ output, collectWhitelistedFiles profile filters limits directory = .ok output ∧
    (output.map Prod.fst).Nodup ∧ ∀ logical, logical ∈ output.map Prod.fst ↔
    ∃ raw ∈ profile.scanRoots, ∃ alone,
      collectWhitelistedFiles (profile.alone raw) filters limits directory = .ok alone ∧
        logical ∈ alone.map Prod.fst

/-- Each scan comes to its end: no path fails to parse, and no limit is reached. -/
structure Scans (profile : GameProfile) (filters : WorkspaceScanFilters)
    (limits : WorkspaceScanLimits)
    (directory : Directory) : Prop where
  within : WithinLimits limits directory
  together : ∃ output, collectWhitelistedFiles profile filters limits directory = .ok output
  alone : ∀ raw ∈ profile.scanRoots, ∃ output,
    collectWhitelistedFiles (profile.alone raw) filters limits directory = .ok output

/-- What the scan of all roots returns: the files that a root allows and an uncovered root leads
to. -/
theorem mem_collect_together_iff (hwithin : WithinLimits limits directory)
    (h : collectWhitelistedFiles profile filters limits directory = .ok output) (logical : Str) :
    logical ∈ output.map Prod.fst ↔ ∃ path, Offered profile filters directory path logical ∧
      (∃ raw, Allows profile raw path) ∧ ∃ root, Uncovered profile root ∧
      Leads profile root path := by
  rw [(mem_collect_iff hwithin h).2]
  refine exists_congr fun path => ?_
  constructor
  · rintro ⟨hfile, htakes, hleads⟩
    obtain ⟨hoffered, hallows⟩ := (takes_iff hfile).mp htakes
    exact ⟨hoffered, hallows, hleads⟩
  · rintro ⟨hoffered, hallows, hleads⟩
    exact ⟨hoffered.file, (takes_iff hoffered.file).mpr ⟨hoffered, hallows⟩, hleads⟩

/-- What the scans of the roots return, each alone. -/
theorem exists_alone_iff (h : Scans profile filters limits directory) (logical : Str) :
    (∃ raw ∈ profile.scanRoots, ∃ alone,
      collectWhitelistedFiles (profile.alone raw) filters limits directory = .ok alone ∧
        logical ∈ alone.map Prod.fst) ↔
      ∃ path, Offered profile filters directory path logical ∧ ∃ raw, Allows profile raw path ∧
        ∃ root, parseLogicalPath raw = .ok root ∧ Leads profile root path := by
  constructor
  · rintro ⟨raw, hraw, alone, hscan, hlogical⟩
    obtain ⟨path, hoffered, hallows, hleads⟩ :=
      (mem_collect_alone_iff h.within hraw hscan logical).mp hlogical
    exact ⟨path, hoffered, raw, hallows, hleads⟩
  · rintro ⟨path, hoffered, raw, hallows, hleads⟩
    obtain ⟨alone, hscan⟩ := h.alone raw hallows.1
    exact ⟨raw, hallows.1, alone, hscan,
      (mem_collect_alone_iff h.within hallows.1 hscan logical).mpr
        ⟨path, hoffered, hallows, hleads⟩⟩

/-! ## Roots behind skipped names -/

/-- Every root has an uncovered one that covers it. -/
theorem exists_uncovered (h : collectWhitelistedFiles profile filters limits directory = .ok output)
    (hroot : IsRoot profile root) : ∃ parent, Uncovered profile parent ∧
    covers profile parent root = true := by
  unfold collectWhitelistedFiles at h
  rcases hroots : profile.scanRoots.mapM parseRoot with error | roots
  · rw [hroots] at h
    cases h
  have hmem : ∀ other, other ∈ roots ↔ IsRoot profile other :=
    mem_mapM_parseRoot profile.scanRoots hroots
  have hkept : Kept profile (collapse profile [] (sortRoots roots)) (sortRoots roots) :=
    kept_sortRoots roots
  obtain ⟨parent, hparent, hcovers⟩ := hkept.covered root
    (mem_sortRoots.mpr ((hmem root).mpr hroot))
  obtain ⟨hmemParent, huncovered⟩ := mem_collapse_iff.mp hparent
  exact ⟨parent, ⟨(hmem parent).mp hmemParent, fun other hother =>
    huncovered other ((hmem other).mpr hother)⟩, hcovers⟩

/-- A covering root leads to what the covered one leads to, if no name between them is skipped. -/
theorem Leads.of_covers {parent : Str} (h : Leads profile root path)
    (hcovers : covers profile parent root = true)
    (hopen : ∀ below, parts root = parts parent ++ below →
      ∀ name ∈ below, ignoredWorkspaceDirectory name = false) : Leads profile parent path := by
  rcases covers_iff.mp hcovers with rfl | ⟨remainder, rfl, hdeep⟩
  · exact h
  obtain ⟨below, hpath, hne, hbelow, hbound⟩ := h
  rw [parts_append] at hpath hopen
  refine ⟨parts remainder ++ below, by rw [hpath, List.append_assoc], by simp [hne], ?_, ?_⟩
  · intro name hname
    rw [List.dropLast_append_of_ne_nil hne] at hname
    rcases List.mem_append.mp hname with hname | hname
    · exact hopen _ rfl name hname
    · exact hbelow name hname
  · intro parentMax hmax
    obtain ⟨rootMax, hroot, hle⟩ := hdeep parentMax hmax
    have := hbound rootMax hroot
    have := List.length_pos_iff.mpr hne
    rw [List.length_append]
    omega

/-- A name that is a component of a path on every platform. -/
def Ordinary (name : Str) : Prop := Plain name ∧ name ≠ ['.'] ∧ name ≠ ['.', '.']

theorem foldlM_pushComponent {path : Str} (texts : List Str) : ∀ before : List Str,
    (∀ text ∈ texts, Ordinary text) → texts.foldlM (pushComponent path) before =
      .ok (before ++ texts) := by
  induction texts with
  | nil =>
    intro before _
    simp [pure, Except.pure]
  | cons text texts ih =>
    intro before h
    obtain ⟨⟨hne, -, -⟩, hdot, hdots⟩ := h text List.mem_cons_self
    have hpush : pushComponent path before text = .ok (before ++ [text]) := by
      unfold pushComponent
      rw [if_neg (by simp [hne, hdot]), if_neg hdots]
    rw [List.foldlM_cons, hpush]
    have hrest := ih (before ++ [text]) fun other hother => h other (List.mem_cons_of_mem _ hother)
    rw [List.append_assoc, List.singleton_append] at hrest
    exact hrest

/-- A path of ordinary components parses to itself. -/
theorem parse_ordinary (hcomponents : ∀ component ∈ components raw, Ordinary component)
    (h : parseLogicalPath raw = .ok root) : root = raw := by
  have hnormalized : (raw.map fun c => if c = '\\' then '/' else c) = raw := by
    calc (raw.map fun c => if c = '\\' then '/' else c) = raw.map id := by
          apply List.map_congr_left
          intro c hc
          rw [if_neg]
          · rfl
          · rintro rfl
            obtain ⟨component, hcomponent, hmem⟩ := (mem_components (by decide)).mpr hc
            exact (hcomponents component hcomponent).1.2.2 hmem
      _ = raw := List.map_id raw
  have hfirst : (raw.dropWhile fun c => c == '/') = raw := by
    cases raw with
    | nil => rfl
    | cons c raw =>
      rw [List.dropWhile_cons_of_neg]
      rintro hc
      obtain rfl := eq_of_beq hc
      have hempty : [] ∈ components ('/' :: raw) := by
        unfold components
        rw [List.splitOn_cons_eq_if_modifyHead]
        simp
      exact (hcomponents [] hempty).1.1 rfl
  unfold parseLogicalPath at h
  dsimp only at h
  rw [hnormalized, hfirst, foldlM_pushComponent _ [] hcomponents] at h
  simp only [bind, Except.bind, List.nil_append] at h
  split at h
  · cases h
  · cases h
    exact List.intercalate_splitOn '/'

theorem components_relative (hne : path ≠ []) (hpath : ∀ name ∈ path, Ordinary name) :
    components (relative path) = path := by
  have hnone := backslash_not_mem_intercalate fun name hname => (hpath name hname).1
  have hrelative : relative path = ['/'].intercalate path := by
    unfold relative
    calc ((['/'].intercalate path).map fun c => if c = '\\' then '/' else c) =
      (['/'].intercalate path).map id := by
          apply List.map_congr_left
          intro c hc
          rw [if_neg]
          · rfl
          · rintro rfl
            exact hnone hc
      _ = ['/'].intercalate path := List.map_id _
  rw [hrelative]
  exact components_intercalate (fun name hname => (hpath name hname).1.2.1) hne

/-- A root that allows a file of ordinary names lies above it, within its bound. -/
theorem Allows.above (h : Allows profile raw path)
    (hraw : parseLogicalPath raw = .ok root) (hne : path ≠ [])
    (hpath : ∀ name ∈ path, Ordinary name) :
    ∃ below, path = parts root ++ below ∧ below ≠ [] ∧
      ∀ maxDepth, profile.scanRootMaxDepth root = some maxDepth → below.length - 1 ≤ maxDepth := by
  have hcomponents := components_relative hne hpath
  have hparts : parts (relative path) = path := by
    unfold parts
    rw [hcomponents]
    exact List.filter_eq_self.mpr fun name hname => by simpa using (hpath name hname).1.1
  have hallowed := h.2
  unfold GameProfile.allowsProfilePathInRoot at hallowed
  by_cases hempty : raw = []
  · subst hempty
    rw [if_pos rfl] at hallowed
    simp only [hparts, Bool.and_eq_true, Option.all_eq_true, decide_eq_true_eq] at hallowed
    obtain rfl : root = [] := (Except.ok.inj hraw).symm
    exact ⟨path, rfl, hne, hallowed.2⟩
  · rw [if_neg hempty] at hallowed
    cases hremainder : GameProfile.remainderBelow raw (relative path) with
    | none => simp [hremainder] at hallowed
    | some remainder =>
      have hrelative := remainderBelow_eq_some_iff.mp hremainder
      have hsplit : path = components raw ++ components remainder := by
        rw [← hcomponents, hrelative]
        exact List.splitOn_append_cons_self raw remainder
      have hordinary : ∀ component ∈ components raw, Ordinary component := by
        intro component hcomponent
        exact hpath component (hsplit ▸ List.mem_append_left _ hcomponent)
      obtain rfl := parse_ordinary hordinary hraw
      rw [hrelative, parts_append] at hparts
      simp only [hremainder, Bool.and_eq_true, Option.all_eq_true, decide_eq_true_eq, bne_iff_ne,
        ne_eq] at hallowed
      exact ⟨_, hparts.symm, hallowed.1.1, hallowed.2⟩

theorem parses_of_collect_alone
    (h : collectWhitelistedFiles (profile.alone raw) filters limits directory = .ok output) :
    ∃ root, parseLogicalPath raw = .ok root := by
  unfold collectWhitelistedFiles GameProfile.alone at h
  rw [List.mapM_cons] at h
  rcases hraw : parseRoot raw with error | root
  · rw [hraw] at h
    cases h
  · exact ⟨root, parseRoot_eq_ok_iff.mp hraw⟩

/-- The names of the tree are components of paths on every platform. -/
def OrdinaryNames (directory : Directory) : Prop :=
  ∀ path, directory.find path = some .file → ∀ name ∈ path, Ordinary name

/-- A root lies below another one, behind a name that walks skip. -/
def Behind (parent root : Str) : Prop := ∃ below,
  parts root = parts parent ++ below ∧
    ∃ name ∈ below, ignoredWorkspaceDirectory name = true

/-- The walk of a root may go as deep as that of one below it. -/
def ReachesAsDeep (profile : GameProfile) (parent root : Str) : Prop :=
  ∀ parentMax, profile.scanRootMaxDepth parent = some parentMax →
    ∃ rootMax, profile.scanRootMaxDepth root = some rootMax ∧
      (parts root).length + rootMax ≤ (parts parent).length + parentMax

/-- A root that lies behind a skipped name below another one, and that no filter leaves out, reaches
deeper than this one, and it has no list of files. Below the whole directory it may reach as
deep. -/
def SkippedRootsApart (profile : GameProfile) (filters : WorkspaceScanFilters) : Prop :=
  ∀ parent root, IsRoot profile parent → IsRoot profile root → Behind parent root →
    filters.ignoresDirectory root = false →
      (parent = [] ∨ ¬ReachesAsDeep profile parent root) ∧ root ∈ profile.scanRoots ∧
        profile.scanRootFiles root = none

section Apart

variable {parent root : Str} {path : List Str}

theorem parts_ne_nil_of_behind (h : Behind parent root) : parts root ≠ [] := by
  obtain ⟨below, hparts, name, hname, -⟩ := h
  rw [hparts]
  exact List.append_ne_nil_of_right_ne_nil _ (List.ne_nil_of_mem hname)

/-- A root that filters leave out has no file below it. -/
theorem not_ignoresDirectory_root (hroot : IsRoot profile root) {below : List Str}
    (hne : parts root ≠ []) (hbelow : below ≠ [])
    (h : filters.ignoresFile (relative (parts root ++ below)) = false) :
    filters.ignoresDirectory root = false := by
  obtain ⟨raw, -, hraw⟩ := hroot
  rw [← relative_parts hraw]
  exact not_ignoresDirectory hne hbelow h

/-- The whole directory covers no other root. -/
theorem ne_nil_of_covers (hroot : IsRoot profile root) (hne : parent ≠ root)
    (h : covers profile parent root = true) : parent ≠ [] := by
  rintro rfl
  obtain ⟨remainder, hremainder, -⟩ := (covers_iff.mp h).resolve_left hne
  obtain ⟨raw, -, hraw⟩ := hroot
  obtain ⟨hparsed, hplain⟩ := parse_spec hraw
  cases hparts : parts root with
  | nil =>
    rw [hparts] at hparsed
    rw [hparsed] at hremainder
    cases hremainder
  | cons first rest =>
    have hfirst : Plain first := hplain first (hparts ▸ List.mem_cons_self)
    obtain ⟨c, text, rfl⟩ := List.exists_cons_of_ne_nil hfirst.1
    rw [hparts, hremainder] at hparsed
    have hhead : c = '/' := by
      cases rest <;> simp [List.intercalate] at hparsed <;> exact hparsed.1.symm
    exact hfirst.2.1 (hhead ▸ List.mem_cons_self)

theorem reachesAsDeep_of_covers (h : covers profile parent root = true) :
    ReachesAsDeep profile parent root := by
  intro parentMax hmax
  rcases covers_iff.mp h with rfl | ⟨remainder, rfl, hdeep⟩
  · exact ⟨parentMax, hmax, le_rfl⟩
  · obtain ⟨rootMax, hroot, hle⟩ := hdeep parentMax hmax
    refine ⟨rootMax, hroot, ?_⟩
    rw [parts_append, List.length_append]
    omega

/-- Between a root and the one that covers it no name is skipped. -/
theorem open_of_apart (hapart : SkippedRootsApart profile filters) (hparent : IsRoot profile parent)
    (hroot : IsRoot profile root) (hcovers : covers profile parent root = true)
    (hnotIgnored : parts root ≠ [] → filters.ignoresDirectory root = false)
    {below : List Str} (hbelow : parts root = parts parent ++ below) :
    ∀ name ∈ below, ignoredWorkspaceDirectory name = false := by
  intro name hname
  by_contra hskipped
  have hbehind : Behind parent root := ⟨below, hbelow, name, hname, by simpa using hskipped⟩
  have hignored := hnotIgnored (parts_ne_nil_of_behind hbehind)
  rcases (hapart parent root hparent hroot hbehind hignored).1 with rfl | hdeep
  · refine ne_nil_of_covers hroot ?_ hcovers rfl
    rintro rfl
    exact parts_ne_nil_of_behind hbehind rfl
  · exact hdeep (reachesAsDeep_of_covers hcovers)

/-- A root without a list of files allows what it leads to. -/
theorem allows_of_leads (hroot : root ∈ profile.scanRoots)
    (hfiles : profile.scanRootFiles root = none)
    (hparse : parseLogicalPath root = .ok root) (hne : root ≠ [])
    (hpath : ∀ name ∈ path, Ordinary name)
    (h : Leads profile root path) : Allows profile root path := by
  obtain ⟨below, rfl, hbelow, -, hbound⟩ := h
  have hparts : parts root ≠ [] := by
    intro hnil
    have hrelative := relative_parts hparse
    rw [hnil] at hrelative
    exact hne hrelative.symm
  have hremainder : GameProfile.remainderBelow root (relative (parts root ++ below)) =
      some (relative below) := by
    rw [remainderBelow_eq_some_iff, relative_append hparts hbelow, relative_parts hparse]
  have hnames : ∀ name ∈ below, Ordinary name := fun name hname =>
    hpath name (List.mem_append_right _ hname)
  have hpartsBelow : parts (relative below) = below := by
    unfold parts
    rw [components_relative hbelow hnames]
    exact List.filter_eq_self.mpr fun name hname => by simpa using (hnames name hname).1.1
  refine ⟨hroot, ?_⟩
  unfold GameProfile.allowsProfilePathInRoot
  rw [if_neg hne, hremainder]
  simp only [hpartsBelow, hfiles, Option.all_none, Bool.and_true, Bool.and_eq_true,
    bne_iff_ne, ne_eq, Option.all_eq_true, decide_eq_true_eq]
  exact ⟨hbelow, hbound⟩

/-- A root above a file of ordinary names parses to itself. -/
theorem parse_root_self (hroot : IsRoot profile root) (hparts : parts root ≠ [])
    (hordinary : ∀ name ∈ parts root, Ordinary name) {other : Str}
    (h : parseLogicalPath root = .ok other) : other = root := by
  obtain ⟨raw, -, hraw⟩ := hroot
  refine parse_ordinary (fun component hcomponent => ?_) h
  have hcomponents := components_relative hparts hordinary
  rw [relative_parts hraw] at hcomponents
  exact hordinary component (hcomponents ▸ hcomponent)

end Apart

/-- `common` and, below a name that the walk of `common` skips, `common/target`. -/
def targetProfile : GameProfile where
  scanRoots := ["common".toList, "common/target".toList]
  scanRootMaxDepth _ := none
  scanRootFiles _ := none
  scanExtensions := []

/-- One file, `common/target/x.txt`. -/
def targetDirectory : Directory where
  entries := .cons "common".toList
    (.dir (.cons "target".toList (.dir (.cons "x.txt".toList .file .nil)) .nil)) .nil
  distinct := by simp [Entries.Distinct, Tree.Distinct, Entries.get]

def targetLimits : WorkspaceScanLimits := ⟨8, 8⟩

theorem collect_target :
    collectWhitelistedFiles targetProfile .empty targetLimits targetDirectory = .ok [] := by
  decide +kernel

theorem collect_target_alone :
    collectWhitelistedFiles (targetProfile.alone "common/target".toList) .empty targetLimits
      targetDirectory =
      .ok [("common/target/x.txt".toList, ["common".toList, "target".toList, "x.txt".toList])] := by
  decide +kernel

theorem get_single {name other : Str} {tree found : Tree} :
    (Entries.cons name tree .nil).get other = some found ↔ other = name ∧ tree = found := by
  simp [Entries.get]

theorem find_dir_cons {entries : Entries} {name : Str} {found : Tree} :
    (Tree.dir entries).find (name :: path) = some found ↔
      ∃ next, entries.get name = some next ∧ next.find path = some found :=
  Option.bind_eq_some_iff

theorem find_target (h : targetDirectory.find path = some .file) :
    path = ["common".toList, "target".toList, "x.txt".toList] := by
  rcases path with _ | ⟨a, _ | ⟨b, _ | ⟨c, path⟩⟩⟩
  · cases h
  · obtain ⟨common, hcommon, h⟩ := find_dir_cons.mp h
    obtain ⟨-, rfl⟩ := get_single.mp hcommon
    cases h
  · obtain ⟨common, hcommon, h⟩ := find_dir_cons.mp h
    obtain ⟨-, rfl⟩ := get_single.mp hcommon
    obtain ⟨target, htarget, h⟩ := find_dir_cons.mp h
    obtain ⟨-, rfl⟩ := get_single.mp htarget
    cases h
  · obtain ⟨common, hcommon, h⟩ := find_dir_cons.mp h
    obtain ⟨rfl, rfl⟩ := get_single.mp hcommon
    obtain ⟨target, htarget, h⟩ := find_dir_cons.mp h
    obtain ⟨rfl, rfl⟩ := get_single.mp htarget
    obtain ⟨found, hx, h⟩ := find_dir_cons.mp h
    obtain ⟨rfl, rfl⟩ := get_single.mp hx
    cases path with
    | nil => rfl
    | cons name path => cases h

/-- `common` for its own files, and `common/target`. -/
def shallowProfile : GameProfile where
  scanRoots := ["common".toList, "common/target".toList]
  scanRootMaxDepth root := if root = "common".toList then some 0 else none
  scanRootFiles _ := none
  scanExtensions := []

end ParadoxCode.Vfs
