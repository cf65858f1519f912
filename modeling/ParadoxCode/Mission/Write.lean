import ParadoxCode.Lib.StableSort
import ParadoxCode.Mission.Load

/-!
# Writing a mission tree

`write.rs`: the style of a source file is detected from its text, and a tree is rendered in that
style. A slice that a boundary check stops is `none`.
-/

namespace ParadoxCode.Eu4

open StableSort (sortByKey)

/-! ## Styles -/

/-- `Indent`: the unit of one level. -/
inductive Indent where
  | tab
  | spaces (width : Nat)
  deriving DecidableEq

inductive BlockSpacing where
  | compact
  | spacious
  deriving DecidableEq

/-- The two line ends a style can hold. -/
inductive Newline where
  | lf
  | crlf
  deriving DecidableEq

def Newline.text : Newline → Str
  | lf => ['\n']
  | crlf => ['\r', '\n']

structure WriteStyle where
  indent : Indent
  newline : Newline
  spacing : BlockSpacing
  deriving DecidableEq

/-- `WriteStyle::indent_text`. -/
def WriteStyle.indentText (style : WriteStyle) (level : Nat) : Str :=
  match style.indent with
  | .tab => List.replicate level '\t'
  | .spaces width => List.replicate (width * level) ' '

/-! ## Detection -/

/-- `str::matches(pattern).count()`: matches do not overlap, so behind one the rest of it is
skipped. -/
def countMatchesFrom (pattern : Str) : Nat → Str → Nat
  | _, [] => 0
  | skip + 1, _ :: text => countMatchesFrom pattern skip text
  | 0, c :: text =>
    if pattern.isPrefixOf (c :: text) then countMatchesFrom pattern (pattern.length - 1) text + 1
    else countMatchesFrom pattern 0 text

def countMatches (pattern text : Str) : Nat := countMatchesFrom pattern 0 text

/-- A line that ended in `\n`, less a carriage return in front of it. -/
def stripCr (line : Str) : Str := if line.getLast? = some '\r' then line.dropLast else line

/-- `str::lines`, with the line read so far. -/
def linesFrom : Str → Str → List Str
  | line, [] => if line = [] then [] else [line]
  | line, c :: text => if c = '\n' then stripCr line :: linesFrom [] text else
      linesFrom (line ++ [c]) text

def lines (text : Str) : List Str := linesFrom [] text

def isIndent (c : Char) : Bool := c == '\t' || c == ' '

/-- The indentation of a line, unless `detect_indent` passes over it. -/
def lineIndent (line : Str) : Option Indent :=
  let before := line.takeWhile isIndent
  let trimmed := line.dropWhile isIndent
  if trimmed = [] ∨ trimmed.head? = some '#' ∨ before = [] then none
  else if '\t' ∈ before then some .tab
  else some (.spaces (if before.length ≤ 255 then before.length else 4))

/-- The loop of `detect_indent`. -/
def firstIndent (text : Str) : Option Indent := (lines text).findSome? lineIndent

/-- The byte order mark. -/
def byteOrderMark : Char := '\uFEFF'

/-- `detect_indent`: the mark is skipped by one byte. -/
def detectIndent (source : Str) : Option Indent := do
  let start := if source.head? = some byteOrderMark then 1 else 0
  let text ← getText source start (byteLen source)
  return (firstIndent text).getD .tab

/-- The first `limit` bytes of the source. -/
def probe (source : Str) (limit : Nat) : Option Str := getText source 0 (min (byteLen source) limit)

def spacingOf (probe : Str) : BlockSpacing :=
  if 0 < countMatches ['\n', '\n'] probe + countMatches ['\r', '\n', '\r', '\n'] probe then
    .spacious else .compact

/-- `detect_spacing`. -/
def detectSpacing (source : Str) : Option BlockSpacing := (probe source (256 * 1024)).map spacingOf

/-- A subtraction of `usize`. -/
def checkedSub (n m : Nat) : Option Nat := if m ≤ n then some (n - m) else none

/-- The line end `detect_style` reads off its probe. -/
def detectNewline (probe : Str) : Option Newline := do
  let crlf := countMatches ['\r', '\n'] probe
  let lfOnly ← checkedSub (probe.count '\n') crlf
  return if lfOnly < crlf then .crlf else .lf

/-- `detect_style`. -/
def detectStyle (source : Str) : Option WriteStyle := do
  let text ← probe source (64 * 1024)
  let newline ← detectNewline text
  let indent ← detectIndent source
  let spacing ← detectSpacing source
  return ⟨indent, newline, spacing⟩

/-! ## Rendering -/

/-- `scalar_field`. -/
def scalarField (indent name value : Str) (style : WriteStyle) : Str :=
  indent ++ name ++ " = ".toList ++ value ++ style.newline.text

/-- `block_field`. -/
def blockField (indent name : Str) (block : Block) (style : WriteStyle) : Str :=
  scalarField indent name block.text style

/-- `raw_field`. -/
def rawField (indent : Str) (field : RawField) (style : WriteStyle) : Str :=
  scalarField indent field.name field.value style

/-- `blank_line`. -/
def blankLine (indent : Str) (style : WriteStyle) : Str := indent ++ style.newline.text

/-- Where `order` declares a role; an unknown role gets `usize::MAX`. -/
def rolePosition (order : List Str) (role : Str) : Nat := (order.idxOf? role).getD (2 ^ 64 - 1)

/-- `write_ordered_fields`. -/
def orderedFields (fields : List (Str × Str)) (order : List Str) : Str :=
  (sortByKey (fun field => rolePosition order field.1) fields).flatMap Prod.snd

def yesNo (value : Bool) : Str := if value then "yes".toList else "no".toList

/-- `u32::to_string`. -/
def decimal (n : Nat) : Str := Nat.toDigits 10 n

/-- The fields of a mission as `render_mission_with_spec` collects them. -/
def missionFields (indField : Str) (mission : Mission) (style : WriteStyle) (spec : ViewSpec) :
    List (Str × Str) :=
  let scalar (role : String) (key : Str) (value : Option Str) : List (Str × Str) :=
    value.toList.map fun value => (role.toList, scalarField indField key value style)
  let block (role : String) (key : Str) (value : Option Block) : List (Str × Str) :=
    value.toList.map fun value =>
      (role.toList, (if style.spacing = .spacious then blankLine indField style else []) ++
        blockField indField key value style)
  scalar "icon" spec.nodeFields.icon mission.icon ++
    scalar "position" spec.nodeFields.position (mission.position.map decimal) ++
    scalar "completed_by" spec.nodeFields.completedBy mission.completedBy ++
    scalar "type" spec.nodeFields.nodeType mission.missionType ++
    [("required_missions".toList, indField ++ spec.nodeFields.requiredMissions ++
      " = \x7b".toList ++ mission.required.flatMap (' ' :: ·) ++ " \x7d".toList ++
      style.newline.text)] ++
    block "provinces_to_highlight" spec.nodeFields.provincesToHighlight
      mission.provincesToHighlight ++
    block "trigger" spec.nodeFields.trigger mission.trigger ++
    block "effect" spec.nodeFields.effect mission.effect ++
    mission.unknown.map fun field => ([], rawField indField field style)

/-- `render_mission_with_spec`. -/
def renderMission (indMission indField : Str) (mission : Mission) (style : WriteStyle)
    (spec : ViewSpec) : Str :=
  indMission ++ mission.id ++ " = \x7b".toList ++ style.newline.text ++
    orderedFields (missionFields indField mission style spec) spec.nodeFieldOrder ++
    indMission ++ ['}'] ++ style.newline.text

/-- The fields of a tree as `render_tree_with_spec` collects them. -/
def treeFields (ind1 : Str) (tree : MissionTree) (style : WriteStyle) (spec : ViewSpec) :
    List (Str × Str) :=
  let scalar (role : String) (key value : Str) : Str × Str :=
    (role.toList, scalarField ind1 key value style)
  let block (role : String) (key : Str) (value : Option Block) : List (Str × Str) :=
    value.toList.map fun value => (role.toList, blockField ind1 key value style)
  [scalar "slot" spec.treeFields.slot (decimal tree.slot),
    scalar "generic" spec.treeFields.generic (yesNo tree.generic)] ++
    (tree.ai.toList.map fun value => scalar "ai" spec.treeFields.ai (yesNo value)) ++
    (tree.hasCountryShield.toList.map fun value =>
      scalar "has_country_shield" spec.treeFields.hasCountryShield (yesNo value)) ++
    block "potential_on_load" spec.treeFields.potentialOnLoad tree.potentialOnLoad ++
    block "potential" spec.treeFields.potential tree.potential ++
    tree.unknown.map fun field => ([], rawField ind1 field style)

/-- The missions of a tree; in a spacious style a blank line stands between two. -/
def renderMissions (ind1 ind2 : Str) (style : WriteStyle) (spec : ViewSpec) : Nat →
    List Mission → Str
  | _, [] => []
  | index, mission :: missions =>
    (if 0 < index ∧ style.spacing = .spacious then blankLine ind1 style else []) ++
      renderMission ind1 ind2 mission style spec ++ renderMissions ind1 ind2 style spec
        (index + 1) missions

/-- `render_tree_with_spec`. -/
def renderTreeWithSpec (tree : MissionTree) (style : WriteStyle) (spec : ViewSpec) : Str :=
  let ind1 := style.indentText 1
  let ind2 := style.indentText 2
  tree.id ++ " = \x7b".toList ++ style.newline.text ++
    (if style.spacing = .spacious then style.newline.text else []) ++
    orderedFields (treeFields ind1 tree style spec) spec.treeFieldOrder ++
    (if tree.missions ≠ [] ∧ style.spacing = .spacious then blankLine ind1 style else []) ++
    renderMissions ind1 ind2 style spec 0 tree.missions ++ ['}']

/-- `render_tree`. -/
def renderTree (tree : MissionTree) (style : WriteStyle) : Str :=
  renderTreeWithSpec tree style viewSpec

/-! ## Lines -/

theorem stripCr_append (line : Str) : stripCr (line ++ ['\r']) = line := by
  unfold stripCr
  rw [if_pos List.getLast?_concat, List.dropLast_concat]

variable {line : Str}

theorem stripCr_of_ne (h : line.getLast? ≠ some '\r') : stripCr line = line := if_neg h

theorem linesFrom_cons (line : Str) (c : Char) (text : Str) : linesFrom line (c :: text) =
    if c = '\n' then stripCr line :: linesFrom [] text else linesFrom (line ++ [c]) text := rfl

/-- Either line end closes a line that does not end in a carriage return. -/
theorem linesFrom_newline {newline : Newline} {front : Str}
    (h : (line ++ front).getLast? ≠ some '\r') (back : Str) :
    linesFrom line (front ++ newline.text ++ back) = linesFrom line (front ++ ['\n']) ++
      linesFrom [] back := by
  induction front generalizing line with
  | nil =>
    rw [List.append_nil] at h
    cases newline with
    | lf => rfl
    | crlf =>
      show linesFrom line ('\r' :: '\n' :: back) = stripCr line :: linesFrom [] back
      rw [linesFrom_cons, if_neg (by decide), linesFrom_cons, if_pos rfl, stripCr_append,
        stripCr_of_ne h]
  | cons c front ih =>
    show linesFrom line (c :: (front ++ newline.text ++ back)) =
      linesFrom line (c :: (front ++ ['\n'])) ++ linesFrom [] back
    rw [linesFrom_cons, linesFrom_cons]
    split_ifs with hc
    · rw [List.cons_append]
      have hfront : ([] ++ front).getLast? ≠ some '\r' := by
        intro hlast
        refine h ?_
        rw [List.nil_append] at hlast
        rw [List.getLast?_append, List.getLast?_cons, hlast]
        rfl
      exact congrArg (stripCr line :: ·) (ih hfront)
    · refine ih ?_
      rwa [List.append_assoc]

theorem firstIndent_newline {newline : Newline} {front : Str} (h : front.getLast? ≠ some '\r')
    (back : Str) :
    firstIndent (front ++ newline.text ++ back) = (firstIndent (front ++ ['\n'])).or
      (firstIndent back) := by
  unfold firstIndent lines
  rw [linesFrom_newline (show ([] ++ front).getLast? ≠ some '\r' from h), List.findSome?_append]

/-- A text without a line feed is one line. -/
theorem linesFrom_single {front : Str} (h : '\n' ∉ front) :
    linesFrom line (front ++ ['\n']) = [stripCr (line ++ front)] := by
  induction front generalizing line with
  | nil =>
    rw [List.append_nil]
    rfl
  | cons c front ih =>
    rw [List.mem_cons, not_or] at h
    rw [List.cons_append]
    rw [linesFrom_cons, if_neg (Ne.symm h.1), ih h.2, List.append_assoc]
    rfl

theorem firstIndent_single {front : Str} (h : '\n' ∉ front) (hlast : front.getLast? ≠ some '\r') :
    firstIndent (front ++ ['\n']) = lineIndent front := by
  unfold firstIndent lines
  rw [linesFrom_single h, List.nil_append, stripCr_of_ne hlast]
  cases hline : lineIndent front <;> simp [hline]

/-! ## The unit of one level -/

/-- A unit that `detect_indent` can read off a line. -/
def Indent.Visible : Indent → Prop
  | .tab => True
  | .spaces width => 0 < width ∧ width ≤ 255

theorem visible_lineIndent {unit : Indent} (h : lineIndent line = some unit) : unit.Visible := by
  unfold lineIndent at h
  dsimp only at h
  split_ifs at h with hskip htab hle <;> cases h
  · trivial
  · rw [not_or, not_or] at hskip
    exact ⟨List.length_pos_iff.mpr hskip.2.2, hle⟩
  · exact ⟨by decide, by decide⟩

theorem visible_firstIndent (text : Str) : ((firstIndent text).getD .tab).Visible := by
  cases h : firstIndent text with
  | none => trivial
  | some unit =>
    obtain ⟨line, -, hline⟩ := List.exists_of_findSome?_eq_some h
    exact visible_lineIndent hline

theorem indentText_isIndent (style : WriteStyle) (level : Nat) : ∀ c ∈ style.indentText level,
    isIndent c = true := by
  intro c hc
  unfold WriteStyle.indentText at hc
  split at hc <;> rw [List.eq_of_mem_replicate hc] <;> rfl

variable {style : WriteStyle}

/-- A line that stands one level deep shows the unit. -/
theorem lineIndent_indentText (h : style.indent.Visible) {c : Char} (hc : isIndent c = false)
    (hcomment : c ≠ '#') (line : Str) : lineIndent (style.indentText 1 ++ c :: line) =
      some style.indent := by
  have hall := indentText_isIndent style 1
  have hbefore : (style.indentText 1 ++ c :: line).takeWhile isIndent = style.indentText 1 := by
    rw [List.takeWhile_append_of_pos hall, List.takeWhile_cons_of_neg (by simp [hc]),
      List.append_nil]
  have htrimmed : (style.indentText 1 ++ c :: line).dropWhile isIndent = c :: line := by
    rw [List.dropWhile_append_of_pos hall, List.dropWhile_cons_of_neg (by simp [hc])]
  unfold lineIndent
  rw [hbefore, htrimmed]
  unfold WriteStyle.indentText
  cases hunit : style.indent with
  | tab => simp [hcomment]
  | spaces width =>
    rw [hunit] at h
    obtain ⟨hpos, hle⟩ := h
    have hne : List.replicate width ' ' ≠ [] := by
      rw [Ne, List.replicate_eq_nil_iff]
      omega
    have htab : '\t' ∉ List.replicate width ' ' := fun hmem =>
      absurd (List.eq_of_mem_replicate hmem) (by decide)
    simp [hcomment, hne, htab, hle]

/-! ## What is detected -/

/-- A carriage return and line feed is counted at its line feed. -/
theorem countMatches_crlf_le (text : Str) : countMatches ['\r', '\n'] text ≤ text.count '\n' := by
  have hboth : countMatchesFrom ['\r', '\n'] 0 text ≤ text.count '\n' ∧
      countMatchesFrom ['\r', '\n'] 1 text ≤ text.tail.count '\n' := by
    induction text with
    | nil => exact ⟨le_rfl, le_rfl⟩
    | cons c text ih =>
      refine ⟨?_, ih.1⟩
      show (if _ then _ else _) ≤ _
      split_ifs with hmatch
      · cases text with
        | nil => simp at hmatch
        | cons d text =>
          obtain ⟨-, hd⟩ : '\r' = c ∧ '\n' = d := by simpa using hmatch
          subst hd
          calc _ ≤ text.count '\n' + 1 := Nat.succ_le_succ ih.2
            _ = ('\n' :: text).count '\n' := List.count_cons_self.symm
            _ ≤ (c :: '\n' :: text).count '\n' := List.count_le_count_cons
      · exact Nat.le_trans ih.1 List.count_le_count_cons
  exact hboth.1

/-- The characters that stand within the first `limit` bytes. -/
def leading (limit : Nat) : Str → Str
  | [] => []
  | c :: text => if c.utf8Size ≤ limit then c :: leading (limit - c.utf8Size) text else []

theorem leading_append {limit : Nat} {before after : Str}
    (hlen : byteLen before = min (byteLen (before ++ after)) limit) :
    leading limit (before ++ after) = before := by
  induction before generalizing limit with
  | nil =>
    cases after with
    | nil => rfl
    | cons c after =>
      have := c.utf8Size_pos
      refine if_neg ?_
      simp only [byteLen_nil, List.nil_append, byteLen_cons] at hlen
      omega
  | cons c before ih =>
    simp only [List.cons_append, byteLen_cons] at hlen
    rw [List.cons_append]
    unfold leading
    rw [if_pos (by omega), ih (by omega)]

variable {source : Str}

/-- A cut between two characters gives the leading ones. -/
theorem probe_of_boundary {limit : Nat} (h : Boundary source (min (byteLen source) limit)) :
    probe source limit = some (leading limit source) := by
  obtain ⟨before, after, rfl, hlen⟩ := h
  rw [leading_append hlen]
  exact getText_eq_some_iff.mpr ⟨[], after, rfl, rfl, by rw [Nat.zero_add, hlen]⟩

theorem probe_isSome_iff {limit : Nat} :
    (probe source limit).isSome = true ↔ Boundary source (min (byteLen source) limit) := by
  unfold probe
  rw [getText_isSome_iff, and_iff_right (Nat.zero_le _), and_iff_right (Boundary.zero source)]

/-- The source without its byte order mark. -/
def stripMark (source : Str) : Str := if source.head? = some byteOrderMark then
    source.tail else source

/-- What the detection is for: the most frequent line end and the spacing of the leading characters,
and the unit of the first indented line behind the byte order mark. -/
def styleOf (source : Str) : WriteStyle where
  indent := (firstIndent (stripMark source)).getD .tab
  newline :=
    let front := leading (64 * 1024) source
    if front.count '\n' - countMatches ['\r', '\n'] front < countMatches ['\r', '\n'] front then
      .crlf else .lf
  spacing := spacingOf (leading (256 * 1024) source)

/-- The slices of `detect_style` stay between characters. -/
structure Cuttable (source : Str) : Prop where
  noMark : source.head? ≠ some byteOrderMark
  newlines : Boundary source (min (byteLen source) (64 * 1024))
  spacing : Boundary source (min (byteLen source) (256 * 1024))

/-- Skipping a byte of the mark cuts into it. -/
theorem detectIndent_mark (text : Str) : detectIndent (byteOrderMark :: text) = none := by
  have hnone : getText (byteOrderMark :: text) 1 (byteLen (byteOrderMark :: text)) = none := by
    rw [← Option.not_isSome_iff_eq_none, getText_isSome_iff]
    rintro ⟨-, ⟨before, after, heq, hlen⟩, -⟩
    cases before with
    | nil => cases hlen
    | cons c before =>
      obtain rfl := (List.cons.inj heq).1
      rw [byteLen_cons, show byteOrderMark.utf8Size = 3 from by decide] at hlen
      omega
  unfold detectIndent
  dsimp only
  rw [List.head?_cons, if_pos rfl, hnone]
  rfl

theorem detectIndent_of_ne (h : source.head? ≠ some byteOrderMark) :
    detectIndent source = some (styleOf source).indent := by
  unfold detectIndent styleOf stripMark
  dsimp only
  rw [if_neg h, if_neg h, getText_full]
  rfl

theorem detectStyle_of_cuttable (h : Cuttable source) : detectStyle source =
    some (styleOf source) := by
  have hle := countMatches_crlf_le (leading (64 * 1024) source)
  unfold detectStyle detectSpacing detectNewline checkedSub
  rw [probe_of_boundary h.newlines, probe_of_boundary h.spacing, detectIndent_of_ne h.noMark]
  simp only [Option.bind_eq_bind, Option.bind_some, if_pos hle, Option.map_some]
  rfl

/-- **Detection is total** exactly where its slices stay between characters. -/
theorem detectStyle_eq_some_iff :
    detectStyle source = some style ↔ Cuttable source ∧ style = styleOf source := by
  constructor
  · intro h
    have hcut : Cuttable source := by
      unfold detectStyle at h
      obtain ⟨front, hfront, h⟩ := Option.bind_eq_some_iff.mp h
      obtain ⟨newline, -, h⟩ := Option.bind_eq_some_iff.mp h
      obtain ⟨unit, hunit, h⟩ := Option.bind_eq_some_iff.mp h
      obtain ⟨spacing, hspacing, -⟩ := Option.bind_eq_some_iff.mp h
      obtain ⟨wide, hwide, -⟩ := Option.map_eq_some_iff.mp hspacing
      refine ⟨?_, probe_isSome_iff.mp (Option.isSome_of_eq_some hfront),
        probe_isSome_iff.mp (Option.isSome_of_eq_some hwide)⟩
      intro hmark
      cases source with
      | nil => cases hmark
      | cons c source =>
        cases hmark
        rw [detectIndent_mark] at hunit
        cases hunit
    rw [detectStyle_of_cuttable hcut] at h
    exact ⟨hcut, (Option.some.inj h).symm⟩
  · rintro ⟨h, rfl⟩
    exact detectStyle_of_cuttable h

theorem visible_styleOf (source : Str) : (styleOf source).indent.Visible := visible_firstIndent _

/-! ## What a rendered tree shows -/

/-- The field whose role is declared first is written first. -/
theorem orderedFields_cons {field : Str × Str} {order : List Str}
    (h : rolePosition order field.1 = 0)
    (fields : List (Str × Str)) : orderedFields (field :: fields) order =
      field.2 ++ orderedFields fields order := by
  unfold orderedFields
  rw [StableSort.sortByKey_cons fun other _ => by rw [h]; exact Nat.zero_le _]
  rfl

theorem not_mem_decimal {c : Char} (h : c.isDigit = false) (n : Nat) : c ∉ decimal n := by
  intro hc
  rw [Nat.isDigit_of_mem_toDigits (by decide) (by decide) hc] at h
  cases h

/-- The line of the slot, less its indentation. -/
def slotLine (tree : MissionTree) : Str := "slot = ".toList ++ decimal tree.slot

theorem slotLine_newline (style : WriteStyle) (tree : MissionTree) :
    '\n' ∉ style.indentText 1 ++ slotLine tree ∧ '\r' ∉ style.indentText 1 ++ slotLine tree := by
  have hindent : ∀ c, isIndent c = false → c ∉ style.indentText 1 := by
    intro c hc hmem
    rw [indentText_isIndent style 1 c hmem] at hc
    cases hc
  unfold slotLine
  simp only [List.mem_append, not_or]
  exact ⟨⟨hindent _ rfl, by decide, not_mem_decimal rfl _⟩,
    ⟨hindent _ rfl, by decide, not_mem_decimal rfl _⟩⟩

/-- The slot is the first field that is collected. -/
theorem treeFields_slot (ind1 : Str) (tree : MissionTree) (style : WriteStyle) (spec : ViewSpec) :
    ∃ fields, treeFields ind1 tree style spec =
      ("slot".toList, scalarField ind1 spec.treeFields.slot (decimal tree.slot) style) :: fields :=
        ⟨_, rfl⟩

/-- Behind the title, and a blank line in a spacious style, the slot of the tree stands one level
deep. -/
theorem renderTree_eq (tree : MissionTree) (style : WriteStyle) : ∃ rest, renderTree tree style =
    tree.id ++ " = \x7b".toList ++ style.newline.text ++
      ((if style.spacing = .spacious then style.newline.text else []) ++
        (style.indentText 1 ++ slotLine tree ++ style.newline.text ++ rest)) := by
  obtain ⟨fields, hfields⟩ := treeFields_slot (style.indentText 1) tree style viewSpec
  have hslot : rolePosition viewSpec.treeFieldOrder "slot".toList = 0 := by decide
  have hline : scalarField (style.indentText 1) viewSpec.treeFields.slot (decimal tree.slot) style =
      style.indentText 1 ++ slotLine tree ++ style.newline.text := by
    unfold scalarField slotLine
    simp only [List.append_assoc]
    rfl
  refine ⟨orderedFields fields viewSpec.treeFieldOrder ++
    ((if tree.missions ≠ [] ∧ style.spacing = .spacious then
      blankLine (style.indentText 1) style else []) ++
      (renderMissions (style.indentText 1) (style.indentText 2) style viewSpec 0
      tree.missions ++ ['}'])), ?_⟩
  unfold renderTree renderTreeWithSpec
  dsimp only
  rw [hfields, orderedFields_cons hslot, hline]
  simp only [List.append_assoc]

/-- The first line of a rendered tree; an id may hold line feeds of its own. -/
def title (tree : MissionTree) : Str := tree.id ++ " = \x7b\n".toList

theorem firstIndent_blank (style : WriteStyle) (back : Str) :
    firstIndent ((if style.spacing = .spacious then style.newline.text else []) ++ back) =
      firstIndent back := by
  split_ifs with hspacious
  · exact firstIndent_newline (show ([] : Str).getLast? ≠ some '\r' from by decide) back
  · rfl

theorem firstIndent_renderTree (tree : MissionTree) (h : style.indent.Visible) :
    firstIndent (renderTree tree style) = (firstIndent (title tree)).or (some style.indent) := by
  obtain ⟨rest, heq⟩ := renderTree_eq tree style
  obtain ⟨hlf, hcr⟩ := slotLine_newline style tree
  have hslot : firstIndent (style.indentText 1 ++ slotLine tree ++ style.newline.text ++ rest) =
    some style.indent := by
    have hlast : (style.indentText 1 ++ slotLine tree).getLast? ≠ some '\r' :=
      fun hlast => hcr (List.mem_of_getLast? hlast)
    have hline : lineIndent (style.indentText 1 ++ slotLine tree) = some style.indent :=
      lineIndent_indentText h (by decide) (by decide) _
    rw [firstIndent_newline hlast, firstIndent_single hlf hlast, hline]
    rfl
  have htitle : (tree.id ++ " = \x7b".toList).getLast? ≠ some '\r' := by
    rw [List.getLast?_append_of_ne_nil _ (by decide)]
    decide
  rw [heq, firstIndent_newline htitle, firstIndent_blank, hslot, List.append_assoc]
  rfl

/-- Detection returns a style for the source, and for the tree rendered in it one with the same
unit. Every rendered tree has a field: `slot` and `generic` are always written. -/
def StyleStable (source : Str) (tree : MissionTree) : Prop :=
  ∃ style, detectStyle source = some style ∧
    ∃ again, detectStyle (renderTree tree style) = some again ∧ again.indent = style.indent

/-- **The detected unit survives rendering** exactly where no slice cuts a character, in the source
and in the rendered tree, and no line inside the title of the tree is indented in another unit. -/
theorem styleStable_iff (source : Str) (tree : MissionTree) : StyleStable source tree ↔
    Cuttable source ∧ Cuttable (renderTree tree (styleOf source)) ∧
      ∀ unit ∈ firstIndent (title tree), unit = (styleOf source).indent := by
  have hunit (hcut : Cuttable (renderTree tree (styleOf source))) :
      (styleOf (renderTree tree (styleOf source))).indent =
        (firstIndent (title tree)).getD (styleOf source).indent := by
    have hmark : stripMark (renderTree tree (styleOf source)) = renderTree tree (styleOf source) :=
      if_neg hcut.noMark
    show (firstIndent (stripMark (renderTree tree (styleOf source)))).getD .tab = _
    rw [hmark, firstIndent_renderTree tree (visible_styleOf source)]
    cases firstIndent (title tree) <;> rfl
  constructor
  · rintro ⟨style, hstyle, again, hagain, hsame⟩
    obtain ⟨hcut, rfl⟩ := detectStyle_eq_some_iff.mp hstyle
    obtain ⟨hcut', rfl⟩ := detectStyle_eq_some_iff.mp hagain
    rw [hunit hcut'] at hsame
    refine ⟨hcut, hcut', ?_⟩
    intro unit hmem
    rw [Option.mem_def.mp hmem] at hsame
    exact hsame
  · rintro ⟨hcut, hcut', htitle⟩
    refine ⟨_, detectStyle_of_cuttable hcut, _, detectStyle_of_cuttable hcut', ?_⟩
    rw [hunit hcut']
    cases hfirst : firstIndent (title tree) with
    | none => rfl
    | some unit => exact htitle unit hfirst

/-- A source that is nothing but a byte order mark has no style. -/
theorem not_styleStable : ¬∀ source tree, StyleStable source tree := by
  intro h
  obtain ⟨style, hstyle, -⟩ := h [byteOrderMark] (.new [])
  obtain ⟨hcut, -⟩ := detectStyle_eq_some_iff.mp hstyle
  exact hcut.noMark rfl

end ParadoxCode.Eu4
