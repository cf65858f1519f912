import ParadoxCode.Vfs.ScanUnion

/-!
# Logical paths

`LogicalPath::parse` folds the segments of a text, and its result only depends on them
(`parse_eq_ok_iff`). The result is a path of ordinary components, which parses to itself. A join
puts it under a root, but for one case: on Windows a text that begins with a drive takes the place
of the root. The text begins with one exactly where a segment with a drive stands at the bottom of
the fold.
-/

namespace ParadoxCode.Vfs

/-! ## Segments -/

/-- Whether a character separates the components of a logical path. -/
def separates (c : Char) : Bool := c == '/' || c == '\\'

/-- What stands between the separators. -/
def segments (path : Str) : List Str := (path.splitOnP separates).filter fun segment => segment ≠ []

/-- The fold of the segments. -/
def foldSegments : List Str → List Str → Option (List Str)
  | stack, [] => some stack
  | stack, segment :: rest =>
    if segment = ['.'] then foldSegments stack rest
    else if segment = ['.', '.'] then
      if stack = [] then none else foldSegments stack.dropLast rest
    else foldSegments (stack ++ [segment]) rest

theorem splitOnP_normalized (path : Str) :
    (path.map fun c => if c = '\\' then '/' else c).splitOnP (· == '/') =
      path.splitOnP separates := by
  induction path with
  | nil => rfl
  | cons c path ih =>
    rw [List.map_cons, List.splitOnP_cons_eq_if_modifyHead, List.splitOnP_cons_eq_if_modifyHead, ih]
    by_cases hbackslash : c = '\\'
    · subst hbackslash
      rfl
    · rw [if_neg hbackslash]
      have hsame : separates c = (c == '/') := by simp [separates, hbackslash]
      rw [hsame]

theorem filter_components_dropWhile (text : Str) :
    (components (text.dropWhile fun c => c == '/')).filter (fun segment => segment ≠ []) =
      (components text).filter fun segment => segment ≠ [] := by
  induction text with
  | nil => rfl
  | cons c text ih =>
    by_cases hslash : c = '/'
    · subst hslash
      rw [List.dropWhile_cons_of_pos (by simp), ih]
      unfold components
      rw [List.splitOn_cons_eq_if_modifyHead]
      simp
    · rw [List.dropWhile_cons_of_neg (by simpa using hslash)]

theorem components_normalized (path : Str) :
    (components ((path.map fun c => if c = '\\' then '/' else c).dropWhile fun c =>
      c == '/')).filter
      (fun segment => segment ≠ []) = segments path := by
  rw [filter_components_dropWhile]
  unfold components segments
  rw [List.splitOn_eq_splitOnP, splitOnP_normalized]

/-- The fold with its error is the fold of what stands between the separators. -/
theorem foldlM_eq_ok_iff {path : Str} (texts : List Str) : ∀ {stack folded : List Str},
    texts.foldlM (pushComponent path) stack = .ok folded ↔
      foldSegments stack (texts.filter fun text => text ≠ []) = some folded := by
  induction texts with
  | nil =>
    intro stack folded
    simp [foldSegments, pure, Except.pure]
  | cons text texts ih =>
    intro stack folded
    rw [List.foldlM_cons]
    unfold pushComponent
    by_cases hempty : text = []
    · rw [if_pos (.inl hempty), List.filter_cons_of_neg (by simp [hempty])]
      exact ih
    · rw [List.filter_cons_of_pos (by simpa using hempty), foldSegments]
      by_cases hdot : text = ['.']
      · rw [if_pos (.inr hdot), if_pos hdot]
        exact ih
      · rw [if_neg (by simp [hempty, hdot]), if_neg hdot]
        by_cases hdots : text = ['.', '.']
        · rw [if_pos hdots, if_pos hdots]
          by_cases hstack : stack = []
          · rw [if_pos hstack, if_pos hstack]
            simp [bind, Except.bind]
          · rw [if_neg hstack, if_neg hstack]
            exact ih
        · rw [if_neg hdots, if_neg hdots]
          exact ih

/-- A path parses to the components that the fold of its segments leaves. -/
theorem parse_eq_ok_iff {path parsed : Str} : parseLogicalPath path = .ok parsed ↔
    ∃ stack, foldSegments [] (segments path) = some stack ∧ (∀ part ∈ stack, Char.ofNat 0 ∉ part) ∧
      parsed = ['/'].intercalate stack := by
  unfold parseLogicalPath
  dsimp only
  rcases hfold : (components ((path.map fun c => if c = '\\' then '/' else c).dropWhile fun c =>
    c == '/')).foldlM
      (pushComponent path) [] with error | stack
  · refine iff_of_false (fun h => nomatch h) ?_
    rintro ⟨stack, hstack, -⟩
    rw [← components_normalized, ← @foldlM_eq_ok_iff path, hfold] at hstack
    cases hstack
  · have hstack := (foldlM_eq_ok_iff _).mp hfold
    rw [components_normalized] at hstack
    rw [hstack]
    simp only [bind, Except.bind, Option.some.injEq, exists_eq_left']
    split_ifs with hnul
    · rw [List.any_eq_true] at hnul
      obtain ⟨part, hpart, hmem⟩ := hnul
      refine iff_of_false (fun h => nomatch h) fun h => h.1 part hpart ?_
      simpa using hmem
    · rw [Except.ok.injEq]
      constructor
      · rintro rfl
        refine ⟨fun part hpart hmem => hnul ?_, rfl⟩
        exact List.any_eq_true.mpr ⟨part, hpart, by simpa using hmem⟩
      · exact fun h => h.2.symm

/-! ## Canonical paths -/

theorem not_separates_of_mem_splitOnP {path piece : Str} (h : piece ∈ path.splitOnP separates) :
    ∀ c ∈ piece, separates c = false := by
  induction path generalizing piece with
  | nil =>
    rw [List.splitOnP_nil, List.mem_singleton] at h
    exact h ▸ fun c hc => absurd hc List.not_mem_nil
  | cons c path ih =>
    rw [List.splitOnP_cons_eq_if_modifyHead] at h
    split_ifs at h with hc
    · rcases List.mem_cons.mp h with rfl | hrest
      · exact fun c hc => absurd hc List.not_mem_nil
      · exact ih hrest
    · cases hsplit : path.splitOnP separates with
      | nil => exact absurd hsplit (List.splitOnP_ne_nil _ _)
      | cons first others =>
        rw [hsplit] at h ih
        rw [List.modifyHead_cons] at h
        rcases List.mem_cons.mp h with rfl | hother
        · intro d hd
          rcases List.mem_cons.mp hd with rfl | hd
          · exact Bool.eq_false_iff.mpr hc
          · exact ih List.mem_cons_self d hd
        · exact ih (List.mem_cons_of_mem _ hother)

theorem plain_of_mem_segments {path segment : Str} (h : segment ∈ segments path) :
    Plain segment := by
  unfold segments at h
  rw [List.mem_filter, decide_eq_true_eq] at h
  have hnone := not_separates_of_mem_splitOnP h.1
  exact ⟨h.2, fun hmem => absurd (hnone '/' hmem) (by decide),
    fun hmem => absurd (hnone '\\' hmem) (by decide)⟩

theorem foldSegments_ordinary {segments : List Str} : ∀ {stack folded : List Str},
    (∀ part ∈ stack, Ordinary part) → (∀ segment ∈ segments, Plain segment) →
      foldSegments stack segments = some folded → ∀ part ∈ folded, Ordinary part := by
  induction segments with
  | nil =>
    intro stack folded hstack _ h
    rw [foldSegments, Option.some.injEq] at h
    exact h ▸ hstack
  | cons segment segments ih =>
    intro stack folded hstack hsegments h
    have hrest := fun other hother => hsegments other (List.mem_cons_of_mem segment hother)
    rw [foldSegments] at h
    split_ifs at h with hdot hdots hempty
    · exact ih hstack hrest h
    · exact ih (fun part hpart => hstack part (List.dropLast_subset _ hpart)) hrest h
    · refine ih (fun part hpart => ?_) hrest h
      rcases List.mem_append.mp hpart with hpart | hpart
      · exact hstack part hpart
      · rw [List.mem_singleton.mp hpart]
        exact ⟨hsegments segment List.mem_cons_self, hdot, hdots⟩

/-- Ordinary components are not folded. -/
theorem foldSegments_of_ordinary {parts : List Str} : ∀ {stack : List Str},
    (∀ part ∈ parts, Ordinary part) → foldSegments stack parts = some (stack ++ parts) := by
  induction parts with
  | nil =>
    intro stack _
    rw [foldSegments, List.append_nil]
  | cons part parts ih =>
    intro stack h
    obtain ⟨-, hdot, hdots⟩ := h part List.mem_cons_self
    rw [foldSegments, if_neg hdot, if_neg hdots, ih fun other hother =>
      h other (List.mem_cons_of_mem part hother), List.append_assoc, List.singleton_append]

theorem map_backslash_eq_self {text : Str} (h : '\\' ∉ text) :
    (text.map fun c => if c = '\\' then '/' else c) = text := by
  calc (text.map fun c => if c = '\\' then '/' else c) = text.map id := by
        apply List.map_congr_left
        intro c hc
        rw [if_neg]
        · rfl
        · rintro rfl
          exact h hc
    _ = text := List.map_id _

theorem segments_intercalate {parts : List Str} (h : ∀ part ∈ parts, Plain part) :
    segments (['/'].intercalate parts) = parts := by
  have hnone := backslash_not_mem_intercalate h
  have hsplit := splitOnP_normalized (['/'].intercalate parts)
  rw [map_backslash_eq_self hnone, ← List.splitOn_eq_splitOnP] at hsplit
  unfold segments
  rw [← hsplit]
  rcases List.eq_nil_or_concat parts with rfl | ⟨front, last, rfl⟩
  · rfl
  · have hcomponents := components_intercalate (fun part hpart => (h part hpart).2.1)
      (by simp)
    unfold components at hcomponents
    rw [hcomponents, List.filter_eq_self]
    exact fun part hpart => decide_eq_true (h part hpart).1

/-- A path in its normal form: it parses to itself, and it has no separator but `/` and no component
that is empty, `.` or `..`. The empty path has no components. -/
structure NormalForm (parsed : Str) : Prop where
  parse : parseLogicalPath parsed = .ok parsed
  backslash : '\\' ∉ parsed
  components : parsed ≠ [] → ∀ component ∈ components parsed,
    component ≠ [] ∧ component ≠ ['.'] ∧ component ≠ ['.', '.']

theorem exists_of_parse {path parsed : Str} (h : parseLogicalPath path = .ok parsed) :
    ∃ stack, foldSegments [] (segments path) = some stack ∧ parsed = ['/'].intercalate stack ∧
      (∀ part ∈ stack, Ordinary part) ∧ ∀ part ∈ stack, Char.ofNat 0 ∉ part := by
  obtain ⟨stack, hstack, hnul, hparsed⟩ := parse_eq_ok_iff.mp h
  have hordinary := foldSegments_ordinary (fun part hpart => absurd hpart List.not_mem_nil)
    (fun segment => plain_of_mem_segments) hstack
  exact ⟨stack, hstack, hparsed, hordinary, hnul⟩

/-- What a path parses to is in normal form. -/
theorem normalForm_of_parse {path parsed : Str} (h : parseLogicalPath path = .ok parsed) :
    NormalForm parsed := by
  obtain ⟨stack, -, rfl, hordinary, hnul⟩ := exists_of_parse h
  have hplain : ∀ part ∈ stack, Plain part := fun part hpart => (hordinary part hpart).1
  refine ⟨?_, backslash_not_mem_intercalate hplain, fun hne component hcomponent => ?_⟩
  · rw [parse_eq_ok_iff, segments_intercalate hplain, foldSegments_of_ordinary hordinary]
    exact ⟨stack, rfl, hnul, rfl⟩
  · have hstack : stack ≠ [] := by
      rintro rfl
      exact hne rfl
    rw [components_intercalate (fun part hpart => (hplain part hpart).2.1) hstack] at hcomponent
    exact ⟨(hplain component hcomponent).1, (hordinary component hcomponent).2⟩

/-- Two spellings of a path that differ only in their separators. -/
def SameButSeparators (left right : Str) : Prop := segments left = segments right

/-- Spellings that differ only in their separators parse to the same path. -/
theorem parse_congr {left right : Str} (h : SameButSeparators left right) (parsed : Str) :
    parseLogicalPath left = .ok parsed ↔ parseLogicalPath right = .ok parsed := by
  unfold SameButSeparators at h
  rw [parse_eq_ok_iff, parse_eq_ok_iff, h]

/-! ## Paths of a platform -/

inductive PathPlatform where
  | unix
  | windows
  deriving DecidableEq

/-- What a Windows path begins with. -/
inductive Volume where
  | verbatim (name : Str)
  | verbatimUnc (server share : Str)
  | verbatimDisk (letter : Char)
  | deviceNs (device : Str)
  | unc (server share : Str)
  | disk (letter : Char)
  deriving DecidableEq

/-- `Prefix::is_verbatim`. -/
def Volume.isVerbatim : Volume → Bool
  | verbatim _ | verbatimUnc _ _ | verbatimDisk _ => true
  | _ => false

inductive PathComponent where
  | curDir
  | parentDir
  | normal (name : Str)
  deriving DecidableEq

/-- A path by its components, as `Path::components` reads it. -/
structure OsPath where
  volume : Option Volume
  rooted : Bool
  components : List PathComponent
  deriving DecidableEq

namespace OsPath

/-- `is_sep_byte`. -/
def isSeparator : PathPlatform → Char → Bool
  | .unix, c => c == '/'
  | .windows, c => c == '/' || c == '\\'

/-- `parse_prefix` of a text that begins with no separator: a drive, as every other form begins with
two separators. -/
def drive : PathPlatform → Str → Option Char
  | .windows, letter :: ':' :: _ => if letter.isAlpha then some letter.toUpper else none
  | _, _ => none

/-- The component of a piece between separators. -/
def componentOf (piece : Str) : Option PathComponent :=
  if piece = [] ∨ piece = ['.'] then none
  else if piece = ['.', '.'] then some .parentDir
  else some (.normal piece)

/-- The path of a text that begins with no two separators. -/
def ofText (platform : PathPlatform) (text : Str) : OsPath :=
  let letter := drive platform text
  let rest := if letter.isSome then text.drop 2 else text
  let rooted := rest.head?.any (isSeparator platform)
  let pieces := rest.splitOnP (isSeparator platform)
  { volume := letter.map Volume.disk
    rooted := rooted
    components := (if rooted = false ∧ pieces.head? = some ['.'] then [.curDir] else []) ++
      pieces.filterMap componentOf }

/-- A component that is pushed on a verbatim path. -/
def pushVerbatim (components : List PathComponent) : PathComponent → List PathComponent
  | .curDir => components
  | .parentDir =>
    match components.getLast? with
    | some (.normal _) => components.dropLast
    | _ => components
  | .normal name => components ++ [.normal name]

/-- `Path::join` of the standard library. A volume takes the place of the base, and so does a root
without a volume, but for the volume of the base. -/
def join (base path : OsPath) : OsPath :=
  if path.volume.isSome then path
  else if base.volume.any Volume.isVerbatim then
    if path.rooted then
      { base with rooted := true, components := path.components.foldl pushVerbatim [] }
    else { base with components := path.components.foldl pushVerbatim base.components }
  else if path.rooted then { base with rooted := true, components := path.components }
  else if base = ⟨none, false, []⟩ then path
  else { base with components := base.components ++ path.components.filter (· ≠ .curDir) }

/-- Whether a path is under another one: its components are those and names behind them. -/
def Inside (base path : OsPath) : Prop :=
  path.volume = base.volume ∧ path.rooted = base.rooted ∧
    ∃ names : List Str, path.components = base.components ++ names.map .normal

end OsPath

/-! ## The bottom of the fold -/

/-- How much a segment adds to the height of the fold. -/
def rise (segment : Str) : Int := if segment = ['.'] then 0 else
    if segment = ['.', '.'] then -1 else 1

/-- How much segments add to the height of the fold. -/
def depth (segments : List Str) : Int := (segments.map rise).sum

@[simp] theorem depth_nil : depth [] = 0 := rfl

@[simp] theorem depth_cons (segment : Str) (segments : List Str) :
    depth (segment :: segments) = rise segment + depth segments := rfl

/-- A segment that stands at the height zero, above the height `height`, and is not taken back
behind it. -/
def Stands (height : Int) (bottom : Str) (segments : List Str) : Prop :=
  ∃ before after, segments = before ++ bottom :: after ∧ bottom ≠ ['.'] ∧ bottom ≠ ['.', '.'] ∧
    height + depth before = 0 ∧ ∀ front, front <+: after → 0 ≤ depth front

/-- The segments do not take back all that is below them. -/
def Leaves (height : Int) (segments : List Str) : Prop := ∀ front, front <+: segments →
    0 < height + depth front

theorem leaves_cons {height : Int} {segment : Str} {segments : List Str} :
    Leaves height (segment :: segments) ↔ 0 < height ∧ Leaves (height + rise segment) segments := by
  unfold Leaves
  constructor
  · intro h
    refine ⟨by simpa using h [] List.nil_prefix, fun front hfront => ?_⟩
    have := h (segment :: front) (List.cons_prefix_cons.mpr ⟨rfl, hfront⟩)
    rwa [depth_cons, ← add_assoc] at this
  · rintro ⟨hpos, h⟩ front hfront
    cases front with
    | nil => simpa using hpos
    | cons first front =>
      obtain ⟨rfl, hrest⟩ := List.cons_prefix_cons.mp hfront
      rw [depth_cons, ← add_assoc]
      exact h front hrest

theorem stands_cons {height : Int} {bottom segment : Str} {segments : List Str} :
    Stands height bottom (segment :: segments) ↔
      (segment = bottom ∧ bottom ≠ ['.'] ∧ bottom ≠ ['.', '.'] ∧ height = 0 ∧ Leaves 1 segments) ∨
        Stands (height + rise segment) bottom segments := by
  have hleaves : ∀ after : List Str, Leaves 1 after ↔ ∀ front, front <+: after →
    0 ≤ depth front := fun after =>
    forall_congr' fun front => imp_congr_right fun _ => by omega
  unfold Stands
  rw [hleaves]
  constructor
  · rintro ⟨before, after, hsplit, hdot, hdots, hheight, hafter⟩
    cases before with
    | nil =>
      obtain ⟨rfl, rfl⟩ := List.cons.inj hsplit
      exact .inl ⟨rfl, hdot, hdots, by simpa using hheight, hafter⟩
    | cons first before =>
      obtain ⟨rfl, rfl⟩ := List.cons.inj hsplit
      rw [depth_cons, ← add_assoc] at hheight
      exact .inr ⟨before, after, rfl, hdot, hdots, hheight, hafter⟩
  · rintro (⟨rfl, hdot, hdots, hheight, hafter⟩ | ⟨before, after, rfl, hdot, hdots,
      hheight, hafter⟩)
    · exact ⟨[], segments, rfl, hdot, hdots, by simpa using hheight, hafter⟩
    · refine ⟨segment :: before, after, rfl, hdot, hdots, ?_, hafter⟩
      rw [depth_cons, ← add_assoc]
      exact hheight

/-- The bottom of a fold was there before and is left, or is a segment that stands there. -/
theorem head?_foldSegments {bottom : Str} {segments : List Str} : ∀ {stack folded : List Str},
    foldSegments stack segments = some folded →
      (folded.head? = some bottom ↔
        stack.head? = some bottom ∧ Leaves stack.length segments ∨
        Stands stack.length bottom segments) := by
  induction segments with
  | nil =>
    intro stack folded h
    rw [foldSegments, Option.some.injEq] at h
    subst h
    have hnone : ¬ Stands stack.length bottom [] := by
      rintro ⟨before, after, hsplit, -⟩
      simp at hsplit
    rw [or_iff_left hnone]
    refine (and_iff_left_of_imp fun hhead => ?_).symm
    intro front hfront
    rw [List.prefix_nil.mp hfront, depth_nil, add_zero]
    cases stack with
    | nil => cases hhead
    | cons first stack => simp
  | cons segment segments ih =>
    intro stack folded h
    rw [leaves_cons, stands_cons]
    rw [foldSegments] at h
    by_cases hdot : segment = ['.']
    · rw [if_pos hdot] at h
      have hrise : rise segment = 0 := if_pos hdot
      rw [ih h, hrise, add_zero]
      have hfirst : ¬ (segment = bottom ∧ bottom ≠ ['.'] ∧ bottom ≠ ['.', '.'] ∧
        (stack.length : Int) = 0 ∧
          Leaves 1 segments) := fun hfirst => hfirst.2.1 (hfirst.1 ▸ hdot)
      rw [or_iff_right hfirst]
      refine or_congr_left (and_congr_right fun hhead => (and_iff_right ?_).symm)
      cases stack with
      | nil => cases hhead
      | cons first stack => simp
    rw [if_neg hdot] at h
    by_cases hdots : segment = ['.', '.']
    · rw [if_pos hdots] at h
      split_ifs at h with hempty
      have hrise : rise segment = -1 := (if_neg hdot).trans (if_pos hdots)
      have hfirst : ¬ (segment = bottom ∧ bottom ≠ ['.'] ∧ bottom ≠ ['.', '.'] ∧
        (stack.length : Int) = 0 ∧
          Leaves 1 segments) := fun hfirst => hfirst.2.2.1 (hfirst.1 ▸ hdots)
      have hpos := List.length_pos_iff.mpr hempty
      have hlength : ((stack.dropLast.length : Nat) : Int) = stack.length + -1 := by
        rw [List.length_dropLast]
        omega
      rw [ih h, hrise, or_iff_right hfirst, hlength]
      refine or_congr_left ?_
      constructor
      · rintro ⟨hhead, hleaves⟩
        refine ⟨?_, by omega, hleaves⟩
        rw [List.head?_dropLast] at hhead
        split_ifs at hhead
        exact hhead
      · rintro ⟨hhead, -, hleaves⟩
        have hmore := hleaves [] List.nil_prefix
        rw [depth_nil] at hmore
        refine ⟨?_, hleaves⟩
        rw [List.head?_dropLast, if_pos (by omega)]
        exact hhead
    · rw [if_neg hdots] at h
      have hrise : rise segment = 1 := (if_neg hdot).trans (if_neg hdots)
      have hlength : (((stack ++ [segment]).length : Nat) : Int) = stack.length + 1 := by
        rw [List.length_append]
        rfl
      rw [ih h, hrise, hlength, ← or_assoc]
      refine or_congr_left ?_
      cases stack with
      | nil =>
        have hzero : (([] : List Str).length : Int) + 1 = 1 := rfl
        rw [hzero]
        constructor
        · rintro ⟨hhead, hleaves⟩
          obtain rfl := Option.some.inj hhead
          exact .inr ⟨rfl, hdot, hdots, rfl, hleaves⟩
        · rintro (⟨hhead, -⟩ | ⟨rfl, -, -, -, hleaves⟩)
          · cases hhead
          · exact ⟨rfl, hleaves⟩
      | cons first stack =>
        constructor
        · rintro ⟨hhead, hleaves⟩
          exact .inl ⟨hhead, by simp, hleaves⟩
        · rintro (⟨hhead, -, hleaves⟩ | ⟨-, -, -, hheight, -⟩)
          · exact ⟨hhead, hleaves⟩
          · simp at hheight
            omega

/-- Joining the path to a root does not leave the root, on any platform. -/
def Confined (parsed : Str) : Prop :=
  ∀ (platform : PathPlatform) (root : OsPath), OsPath.Inside root
    (root.join (OsPath.ofText platform parsed))

/-- Whether a text begins with a drive. -/
def beginsWithDrive : Str → Bool
  | letter :: ':' :: _ => letter.isAlpha
  | _ => false

/-- A segment that begins with a drive stands at the bottom of the fold. -/
def DriveAtBottom (path : Str) : Prop :=
  ∃ bottom, beginsWithDrive bottom = true ∧ Stands 0 bottom (segments path)

theorem isSome_drive_windows (text : Str) : (OsPath.drive .windows text).isSome =
    beginsWithDrive text := by
  unfold OsPath.drive beginsWithDrive
  split
  · split_ifs with halpha
    · simpa using halpha.symm
    · simpa using halpha
  · rename_i h
    split
    · exact absurd rfl (h _ _ rfl)
    · rfl

/-- A path is its first component with nothing or a separator behind it. -/
theorem exists_intercalate_cons (part : Str) (parts : List Str) :
    ∃ tail, ['/'].intercalate (part :: parts) = part ++ tail ∧
    (tail = [] ∨ tail.head? = some '/') := by
  cases parts with
  | nil => exact ⟨[], by simp [List.intercalate], .inl rfl⟩
  | cons next parts =>
    exact ⟨'/' :: ['/'].intercalate (next :: parts), by simp [List.intercalate, List.intersperse],
      .inr rfl⟩

/-- A path begins with a drive exactly if its first component does. -/
theorem beginsWithDrive_intercalate {stack : List Str} (h : ∀ part ∈ stack, Plain part) :
    beginsWithDrive (['/'].intercalate stack) = true ↔ ∃ bottom, beginsWithDrive bottom = true ∧
      stack.head? = some bottom := by
  cases stack with
  | nil => exact iff_of_false (by decide) fun ⟨_, _, h⟩ => nomatch h
  | cons part parts =>
    obtain ⟨tail, htext, htail⟩ := exists_intercalate_cons part parts
    have hsame : beginsWithDrive (part ++ tail) = beginsWithDrive part := by
      match part with
      | [] => exact absurd rfl (h [] List.mem_cons_self).1
      | [letter] =>
        rcases htail with rfl | htail
        · rfl
        · obtain ⟨more, rfl⟩ : ∃ more, tail = '/' :: more := List.head?_eq_some_iff.mp htail
          rfl
      | letter :: next :: more =>
        show beginsWithDrive (letter :: next :: (more ++ tail)) = _
        unfold beginsWithDrive
        by_cases hnext : next = ':'
        · subst hnext
          rfl
        · split
          · rename_i heq
            exact absurd (List.cons.inj (List.cons.inj heq).2).1 hnext
          · split
            · rename_i heq
              exact absurd (List.cons.inj (List.cons.inj heq).2).1 hnext
            · rfl
    rw [htext, hsame]
    simp

theorem ofText_of_ordinary {stack : List Str} (h : ∀ part ∈ stack, Ordinary part)
    {platform : PathPlatform} (hdrive : OsPath.drive platform (['/'].intercalate stack) = none) :
    OsPath.ofText platform (['/'].intercalate stack) = ⟨none, false, stack.map .normal⟩ := by
  have hplain : ∀ part ∈ stack, Plain part := fun part hpart => (h part hpart).1
  have hpieces : ((['/'].intercalate stack).splitOnP (OsPath.isSeparator platform)).filter
    (fun piece => piece ≠ []) =
      stack := by
    have hsegments := segments_intercalate hplain
    unfold segments at hsegments
    cases platform with
    | windows => exact hsegments
    | unix =>
      have hnormalized := splitOnP_normalized (['/'].intercalate stack)
      rw [map_backslash_eq_self (backslash_not_mem_intercalate hplain)] at hnormalized
      rw [← hnormalized] at hsegments
      exact hsegments
  have hrooted : (['/'].intercalate stack).head?.any (OsPath.isSeparator platform) = false := by
    cases stack with
    | nil => rfl
    | cons part parts =>
      obtain ⟨tail, htext, -⟩ := exists_intercalate_cons part parts
      obtain ⟨hne, hslash, hbackslash⟩ := hplain part List.mem_cons_self
      obtain ⟨c, more, rfl⟩ := List.exists_cons_of_ne_nil hne
      rw [List.mem_cons, not_or] at hslash hbackslash
      rw [htext]
      cases platform with
      | unix => simpa [OsPath.isSeparator] using Ne.symm hslash.1
      | windows => simpa [OsPath.isSeparator] using ⟨Ne.symm hslash.1, Ne.symm hbackslash.1⟩
  have hfilter : ∀ pieces : List Str, pieces.filterMap OsPath.componentOf =
      (pieces.filter fun piece => piece ≠ []).filterMap OsPath.componentOf := by
    intro pieces
    rw [List.filterMap_filter]
    refine List.filterMap_congr fun piece _ => ?_
    by_cases hpiece : piece = []
    · rw [hpiece]
      rfl
    · rw [if_pos (decide_eq_true hpiece)]
  have hcomponents : stack.filterMap OsPath.componentOf = stack.map .normal := by
    rw [← List.filterMap_eq_map]
    refine List.filterMap_congr fun part hpart => ?_
    obtain ⟨⟨hne, -⟩, hdot, hdots⟩ := h part hpart
    unfold OsPath.componentOf
    rw [if_neg (by simp [hne, hdot]), if_neg hdots]
    rfl
  have hleading : ((['/'].intercalate stack).splitOnP (OsPath.isSeparator platform)).head? ≠
    some ['.'] := by
    intro hhead
    have hmem : ['.'] ∈ stack := by
      rw [← hpieces, List.mem_filter]
      exact ⟨List.mem_of_head? hhead, by decide⟩
    exact (h _ hmem).2.1 rfl
  unfold OsPath.ofText
  dsimp only
  rw [hdrive]
  simp only [Option.isSome_none, Bool.false_eq_true, if_false, Option.map_none]
  rw [hrooted, if_neg fun hdot => hleading hdot.2, List.nil_append, hfilter, hpieces, hcomponents]

theorem foldl_pushVerbatim (names : List Str) : ∀ components : List PathComponent,
    (names.map PathComponent.normal).foldl OsPath.pushVerbatim components =
      components ++ names.map .normal := by
  induction names with
  | nil => exact fun components => (List.append_nil _).symm
  | cons name names ih =>
    intro components
    rw [List.map_cons, List.foldl_cons, ih]
    exact List.append_assoc ..

/-- A path is confined exactly if it does not begin with a drive. -/
theorem confined_iff {stack : List Str} (h : ∀ part ∈ stack, Ordinary part) :
    Confined (['/'].intercalate stack) ↔ beginsWithDrive (['/'].intercalate stack) = false := by
  constructor
  · intro hconfined
    rw [← Bool.not_eq_true, ← isSome_drive_windows]
    intro hdrive
    -- the path takes the place of a share
    have hinside := hconfined .windows ⟨some (.unc "server".toList "share".toList), true, []⟩
    have hvolume : (OsPath.ofText .windows (['/'].intercalate stack)).volume =
        (OsPath.drive .windows (['/'].intercalate stack)).map Volume.disk := rfl
    obtain ⟨letter, hletter⟩ := Option.isSome_iff_exists.mp hdrive
    rw [hletter, Option.map_some] at hvolume
    unfold OsPath.join at hinside
    rw [hvolume, Option.isSome_some, if_pos rfl] at hinside
    have hsame := hinside.1
    rw [hvolume] at hsame
    cases hsame
  · intro hdrive platform root
    have hnone : OsPath.drive platform (['/'].intercalate stack) = none := by
      cases platform with
      | unix => rfl
      | windows =>
        rw [← Option.not_isSome_iff_eq_none, isSome_drive_windows, hdrive]
        exact Bool.false_ne_true
    rw [ofText_of_ordinary h hnone]
    have hkept : (stack.map PathComponent.normal).filter (· ≠ .curDir) = stack.map .normal := by
      rw [List.filter_eq_self]
      intro component hcomponent
      obtain ⟨name, -, rfl⟩ := List.mem_map.mp hcomponent
      rfl
    unfold OsPath.join
    simp only [Option.isSome_none, Bool.false_eq_true, if_false]
    rw [foldl_pushVerbatim, hkept]
    split_ifs with hverbatim hempty
    · exact ⟨rfl, rfl, stack, rfl⟩
    · rw [hempty]
      exact ⟨rfl, rfl, stack, rfl⟩
    · exact ⟨rfl, rfl, stack, rfl⟩

/-! ## Where paths are confined -/

/-- What holds of a path that is accepted: it is in normal form, confined under every root, and the
only value of the spellings that differ from it in their separators. -/
structure Safe (path parsed : Str) : Prop where
  normalForm : NormalForm parsed
  confined : Confined parsed
  spellings : ∀ other, SameButSeparators path other → parseLogicalPath other = .ok parsed

/-- An accepted path is canonical, and it is confined exactly if no segment with a drive stands at
the bottom of its fold. -/
theorem safe_iff {path parsed : Str} (h : parseLogicalPath path = .ok parsed) :
    Safe path parsed ↔ ¬ DriveAtBottom path := by
  obtain ⟨stack, hstack, hparsed, hordinary, -⟩ := exists_of_parse h
  have hbottom : DriveAtBottom path ↔ beginsWithDrive parsed = true := by
    rw [hparsed, beginsWithDrive_intercalate fun part hpart => (hordinary part hpart).1]
    refine exists_congr fun bottom => and_congr_right fun _ => ?_
    rw [head?_foldSegments hstack]
    simp
  rw [hbottom, Bool.not_eq_true]
  subst hparsed
  constructor
  · exact fun hsafe => (confined_iff hordinary).mp hsafe.confined
  · exact fun hdrive => ⟨normalForm_of_parse h, (confined_iff hordinary).mpr hdrive,
      fun other hsame => (parse_congr hsame _).mp h⟩

/-- A drive behind a component that is taken back. -/
theorem safe_iff_drive : ¬ Safe "a\\..//C:x".toList "C:x".toList := by
  intro hsafe
  refine (safe_iff (by decide +kernel)).mp hsafe ⟨"C:x".toList, by decide,
    ["a".toList, "..".toList], [], by decide +kernel, by decide, by decide, by decide,
    fun front hfront => ?_⟩
  rw [List.prefix_nil.mp hfront, depth_nil]

/-- A path that begins with a drive is accepted. -/
theorem not_safe_drive : ¬ ∀ path parsed, parseLogicalPath path = .ok parsed →
    Safe path parsed := by
  intro h
  have hsafe := h "C:/Windows/win.ini".toList "C:/Windows/win.ini".toList (by decide +kernel)
  have hinside := hsafe.confined .windows ⟨some (.disk 'D'), true, [.normal "mod".toList]⟩
  obtain ⟨hvolume, -⟩ := hinside
  revert hvolume
  decide +kernel

end ParadoxCode.Vfs
