import Mathlib.Data.List.MinMax
import ParadoxCode.Ide.Rename
import ParadoxCode.Lib.Substrings
import ParadoxCode.Parser.SourceOrder

/-!
# Parameters in tokens

`lower_parameters` of `parameters.rs` finds the uses of parameters in the tokens of a file, and
`template_token` of `template_lowering.rs` cuts a token into literals and parameters at them. The
kind of a use is left out.
-/

namespace ParadoxCode.Ide.ParameterTokens

open Engine (TemplateFragment TemplateToken)
open ParadoxCode.Parser (CstNode ParsedFile SyntaxToken TokenKind childOfKind)
open Spans (Follow)
open StableSort (sortByKey perm_sortByKey pairwise_sortByKey)

/-! ## Uses in a token -/

/-- A delimited name, with the range of both delimiters and that of the name. -/
structure Delimited where
  name : Str
  range : TextRange
  nameRange : TextRange

/-- The position in the file of an offset in the token. -/
def absolute (tokenRange : TextRange) (relative : Nat) : Nat :=
  (tryU32 (tokenRange.start + relative)).getD u32Max

/-- The name between two delimiters. -/
def delimited (raw : Str) (tokenRange : TextRange) (delimiter : Char) (start offset : Nat) :
    Delimited where
  name := (getText raw (start + byteLen [delimiter]) offset).getD []
  range := (TextRange.new (absolute tokenRange start)
    (absolute tokenRange (offset + byteLen [delimiter]))).getD tokenRange
  nameRange := (TextRange.new (absolute tokenRange (start + byteLen [delimiter]))
    (absolute tokenRange offset)).getD tokenRange

/-- The loop of `delimited_parameters`, with the delimiter that is open and the offset of the text
that is left. -/
def delimitedFrom (raw : Str) (tokenRange : TextRange) (delimiter : Char) : Option Nat → Nat → Str →
    List Delimited
  | _, _, [] => []
  | opening, offset, c :: rest =>
    if c ≠ delimiter then delimitedFrom raw tokenRange delimiter opening (offset + byteLen [c]) rest
    else
      match opening with
      | none => delimitedFrom raw tokenRange delimiter (some offset) (offset + byteLen [c]) rest
      | some start =>
        if offset ≤ start + byteLen [delimiter] then
          delimitedFrom raw tokenRange delimiter none (offset + byteLen [c]) rest
        else
          delimited raw tokenRange delimiter start offset ::
            delimitedFrom raw tokenRange delimiter none (offset + byteLen [c]) rest

def delimitedParameters (raw : Str) (tokenRange : TextRange) (delimiter : Char) : List Delimited :=
  delimitedFrom raw tokenRange delimiter none 0 raw

/-! ## Uses in a file -/

/-- `HirParameterConditional`, as far as it is recorded. -/
structure HirParameterConditional where
  name : Str
  range : TextRange
  conditionRange : TextRange
  nameRange : TextRange

/-- `HirProperty`, as far as it owns parameters. -/
structure HirProperty where
  topLevel : Bool
  range : TextRange

def rangeWithin (inner outer : TextRange) : Bool :=
  decide (outer.start ≤ inner.start ∧ inner.stop ≤ outer.stop)

def rangesOverlap (left right : TextRange) : Bool :=
  decide (left.start < right.stop ∧ right.start < left.stop)

/-- A parsed file: its tokens follow one another, and so do the heads of its conditional blocks. -/
structure Source where
  text : Str
  tokens : List SyntaxToken
  properties : List HirProperty
  conditionals : List HirParameterConditional
  small : byteLen text ≤ u32Max
  follow : Follow (·.range.start) (·.range.stop) tokens 0 (byteLen text)
  heads : conditionals.Pairwise fun left right => rangesOverlap left.conditionRange
    right.conditionRange = false

/-- `ProfileTokenDefinitionRule`, with the test of its path. -/
structure ProfileTokenDefinitionRule where
  path : Str → Bool
  delimiter : Char

/-- `owning_definition_range`. -/
def owningDefinitionRange (source : Source) (definitions : Option (List TextRange))
    (occurrence : TextRange) : Option TextRange :=
  match definitions with
  | some definitions => (definitions.filter (rangeWithin occurrence)).argmin fun range =>
      range.stop - range.start
  | none =>
    ((source.properties.filter fun property => property.topLevel &&
      rangeWithin occurrence property.range).map (·.range)).head?

/-- The owner that a use is recorded for. -/
def recordedOwner (source : Source) (definitions : Option (List TextRange))
    (occurrence : TextRange) : Option TextRange :=
  (owningDefinitionRange source definitions occurrence).filter fun owner =>
    definitions.all fun definitions => definitions.any (· == owner)

/-- The uses of a token that are recorded: those in the head of a conditional block are not. -/
def tokenOccurrences (source : Source) (definitions : Option (List TextRange)) (delimiter : Char)
    (token : SyntaxToken) : List ParameterOccurrence :=
  if token.kind = .bare ∨ token.kind = .quoted then
    match getText source.text token.range.start token.range.stop with
    | none => []
    | some raw =>
      (delimitedParameters raw token.range delimiter).filterMap fun found =>
        if (source.conditionals.any fun conditional => rangesOverlap found.range
          conditional.conditionRange) = true then none
        else (recordedOwner source definitions found.range).map fun owner =>
          ⟨⟨found.name, found.range, found.nameRange, owner⟩, delimiter⟩
  else []

def conditionalOccurrence (source : Source) (definitions : Option (List TextRange))
    (delimiter : Char) (conditional : HirParameterConditional) : Option ParameterOccurrence :=
  (recordedOwner source definitions conditional.range).map fun owner =>
    ⟨⟨conditional.name, conditional.conditionRange, conditional.nameRange, owner⟩, delimiter⟩

def occurrences (source : Source) (definitions : Option (List TextRange)) (delimiters : List Char) :
    List ParameterOccurrence :=
  (delimiters.flatMap fun delimiter => source.tokens.flatMap
    (tokenOccurrences source definitions delimiter)) ++ source.conditionals.filterMap
    (conditionalOccurrence source definitions (delimiters.head?.getD '$'))

/-- The delimiters of the token definitions of a path. -/
def delimitersOf (rules : List ProfileTokenDefinitionRule) (logicalPath : Str) : List Char :=
  let tokenRules := rules.filter fun rule => rule.path logicalPath
  if tokenRules.isEmpty = true then ['$'] else tokenRules.map (·.delimiter)

/-- `lower_parameters`. -/
def lowerFile (source : Source) (logicalPath : Option Str) (rules : List ProfileTokenDefinitionRule)
    (definitions : Option (List TextRange)) : List ParameterDefinition × List ParameterReference :=
  match logicalPath with
  | none => ([], [])
  | some logicalPath =>
    let dynamicPath := definitions.any fun definitions => !definitions.isEmpty
    if (rules.filter fun rule => rule.path logicalPath).isEmpty = true ∧
      dynamicPath = false then ([], [])
    else lowerParameters (occurrences source definitions (delimitersOf rules logicalPath))

/-! ## Fragments -/

/-- The loop over the slots, from the cursor: the fragments, and the last cursor. -/
def slotFragments (text : Str) : Nat → List ParameterReference →
    Option (List (TemplateFragment TextRange) × Nat)
  | cursor, [] => some ([], cursor)
  | cursor, reference :: rest =>
    if reference.range.start < cursor then slotFragments text cursor rest
    else do
      let literal ←
        if cursor < reference.range.start then
          (getText text cursor reference.range.start).map fun text => [.literal text]
        else some []
      let (fragments, last) ← slotFragments text reference.range.stop rest
      some (literal ++ .parameter reference.name reference.range :: fragments, last)

def isQuoted (raw : Str) : Bool :=
  decide (raw.head? = some '"' ∧ raw.getLast? = some '"' ∧ 2 ≤ byteLen raw)

def contentRange (raw : Str) (range : TextRange) : Option TextRange :=
  if isQuoted raw = true then TextRange.new (range.start + 1) (range.stop - 1) else some range

/-- The literal behind the last slot. -/
def closeFragments (text : Str) (fragments : List (TemplateFragment TextRange))
    (cursor stop : Nat) : Option (List (TemplateFragment TextRange)) :=
  if cursor < stop then (getText text cursor stop).map fun text => fragments ++ [.literal text] else
    some fragments

/-- A token without fragments has one literal. -/
def orContent (text : Str) (content : TextRange) (fragments : List (TemplateFragment TextRange)) :
    Option (List (TemplateFragment TextRange)) :=
  if fragments.isEmpty = true then (getText text content.start content.stop).map fun text =>
    [.literal text]
  else some fragments

/-- `template_token`, on the range of a node. -/
def templateToken (text : Str) (range : TextRange) (references : List ParameterReference) :
    Option (TemplateToken TextRange) := do
  let raw ← getText text range.start range.stop
  let content ← contentRange raw range
  let slots := sortByKey (·.range.start) (references.filter fun reference =>
    rangeWithin reference.range content)
  let (fragments, cursor) ← slotFragments text content.start slots
  let fragments ← closeFragments text fragments cursor content.stop
  let fragments ← orContent text content fragments
  some ⟨range, isQuoted raw, fragments⟩

/-! ## Cutting a token -/

/-- What a fragment stands for in the text. -/
def spelling (text : Str) : TemplateFragment TextRange → Option Str
  | .literal literal => some literal
  | .parameter _ range => getText text range.start range.stop

/-- The fragments, one behind the other. -/
def spellings (text : Str) (fragments : List (TemplateFragment TextRange)) : Option Str :=
  (fragments.mapM (spelling text)).map List.flatten

/-- The fragments are what stands between two offsets. -/
def Spelled (text : Str) (fragments : List (TemplateFragment TextRange))
    (start stop : Nat) : Prop :=
  ∃ written, spellings text fragments = some written ∧ getText text start stop = some written

section Fragments

variable {text raw : Str} {fragments : List (TemplateFragment TextRange)} {start middle stop : Nat}

theorem Spelled.cons {fragment : TemplateFragment TextRange} {word : Str}
    (hword : spelling text fragment = some word)
    (htext : getText text start middle = some word) (h : Spelled text fragments middle stop) :
    Spelled text (fragment :: fragments) start stop := by
  obtain ⟨written, hspellings, hrest⟩ := h
  refine ⟨word ++ written, ?_, getText_append htext hrest⟩
  obtain ⟨words, hwords, rfl⟩ := Option.map_eq_some_iff.mp hspellings
  unfold spellings
  rw [List.mapM_cons, hword, hwords]
  rfl

theorem Spelled.concat {fragment : TemplateFragment TextRange} {word : Str}
    (h : Spelled text fragments start middle)
    (hword : spelling text fragment = some word) (htext : getText text middle stop = some word) :
    Spelled text (fragments ++ [fragment]) start stop := by
  obtain ⟨written, hspellings, hfront⟩ := h
  refine ⟨written ++ word, ?_, getText_append hfront htext⟩
  obtain ⟨words, hwords, rfl⟩ := Option.map_eq_some_iff.mp hspellings
  unfold spellings
  rw [List.mapM_append, hwords, List.mapM_cons, hword]
  simp

/-- The slots are cut out where they stand, and what is between them is kept. -/
theorem slotFragments_spelled {hi : Nat} (slots : List ParameterReference)
    (hslots : ∀ reference ∈ slots,
      (getText text reference.range.start reference.range.stop).isSome = true ∧
      reference.range.stop ≤ hi) :
    ∀ {cursor : Nat}, Boundary text cursor → cursor ≤ hi →
      ∃ fragments last, slotFragments text cursor slots = some (fragments, last) ∧ last ≤ hi ∧
        Boundary text last ∧ Spelled text fragments cursor last := by
  induction slots with
  | nil => exact fun hcursor hle => ⟨[], _, rfl, hle, hcursor, [], rfl, getText_self hcursor⟩
  | cons reference rest ih =>
    intro cursor hcursor hle
    have hrest := fun {cursor : Nat} =>
      @ih (fun other hother => hslots other (List.mem_cons_of_mem _ hother)) cursor
    obtain ⟨hreadable, hstop⟩ := hslots reference List.mem_cons_self
    obtain ⟨-, hstart, hend⟩ := getText_isSome_iff.mp hreadable
    obtain ⟨word, hword⟩ := Option.isSome_iff_exists.mp hreadable
    rw [slotFragments]
    by_cases hskip : reference.range.start < cursor
    · rw [if_pos hskip]
      exact hrest hcursor hle
    rw [if_neg hskip]
    obtain ⟨fragments, last, hfragments, hlast, hboundary, hspelled⟩ := hrest hend hstop
    have hparameter : Spelled text (.parameter reference.name reference.range :: fragments)
      reference.range.start last :=
      hspelled.cons hword hword
    rw [hfragments]
    by_cases hgap : cursor < reference.range.start
    · obtain ⟨literal, hliteral⟩ := exists_getText hgap.le hcursor hstart
      rw [if_pos hgap, hliteral]
      exact ⟨_, last, rfl, hlast, hboundary, hparameter.cons rfl hliteral⟩
    · obtain rfl : cursor = reference.range.start := by omega
      rw [if_neg hgap]
      exact ⟨_, last, rfl, hlast, hboundary, hparameter⟩

theorem stop_of_getText {start stop : Nat} (h : getText text start stop = some raw) :
    stop = start + byteLen raw ∧ stop ≤ byteLen text := by
  obtain ⟨before, after, rfl, rfl, rfl⟩ := getText_eq_some_iff.mp h
  rw [byteLen_append, byteLen_append]
  exact ⟨rfl, Nat.le_add_right _ _⟩

/-- A part of a text that is read. -/
theorem getText_inside {start stop : Nat} {before word after : Str}
    (h : getText text start stop = some (before ++ (word ++ after))) :
    getText text (start + byteLen before) (start + byteLen before + byteLen word) = some word :=
  (getText_cut (getText_cut h).2).1

/-- The content of a node is what stands between its quotes. -/
theorem exists_content {range : TextRange} (hraw : getText text range.start range.stop = some raw) :
    ∃ content inner, contentRange raw range = some content ∧
      getText text content.start content.stop = some inner ∧
      raw = if isQuoted raw = true then '"' :: (inner ++ ['"']) else inner := by
  unfold contentRange
  by_cases hquoted : isQuoted raw = true
  · obtain ⟨hhead, hlast, hlength⟩ := of_decide_eq_true hquoted
    rw [if_pos hquoted]
    cases raw with
    | nil => cases hhead
    | cons c rest =>
      obtain rfl : c = '"' := Option.some.inj hhead
      rcases List.eq_nil_or_concat rest with rfl | ⟨inner, last, rfl⟩
      · exact absurd hlength (by decide)
      · rw [List.concat_eq_append, ← List.cons_append, List.getLast?_concat] at hlast
        obtain rfl : last = '"' := Option.some.inj hlast
        rw [List.concat_eq_append] at hraw ⊢
        have hinner := @getText_inside _ _ _ ['"'] inner ['"'] hraw
        obtain ⟨hstop, -⟩ := stop_of_getText hraw
        have hend : range.start + byteLen ['"'] + byteLen inner = range.stop - 1 := by
          have hone : ('"').utf8Size = 1 := rfl
          rw [hstop]
          simp only [byteLen_cons, byteLen_append, byteLen_nil, hone]
          omega
        rw [hend] at hinner
        refine ⟨⟨range.start + 1, range.stop - 1, getText_le hinner⟩, inner,
          dif_pos (getText_le hinner), hinner, ?_⟩
        rw [if_pos (by rwa [List.concat_eq_append] at hquoted)]
  · rw [if_neg hquoted]
    exact ⟨range, raw, rfl, hraw, (if_neg hquoted).symm⟩

/-- A token is cut without loss, at whatever uses. -/
theorem templateToken_spelled {range : TextRange}
    (hraw : getText text range.start range.stop = some raw) (references : List ParameterReference)
    (hreferences : ∀ reference ∈ references,
      (getText text reference.range.start reference.range.stop).isSome = true) :
    ∃ token content inner, templateToken text range references = some token ∧
      contentRange raw range = some content ∧ getText text content.start content.stop = some inner ∧
      spellings text token.fragments = some inner := by
  obtain ⟨content, inner, hcontent, hinner, -⟩ := exists_content hraw
  have hbounds := getText_isSome_iff.mp (show (getText text content.start content.stop).isSome =
    true by rw [hinner]; rfl)
  have hslots : ∀ reference ∈ sortByKey (·.range.start)
    (references.filter fun reference => rangeWithin reference.range content),
      (getText text reference.range.start reference.range.stop).isSome = true ∧
      reference.range.stop ≤ content.stop := by
    intro reference hmem
    obtain ⟨hmem, hwithin⟩ := List.mem_filter.mp ((perm_sortByKey _ _).mem_iff.mp hmem)
    exact ⟨hreferences reference hmem, (of_decide_eq_true hwithin).2⟩
  obtain ⟨fragments, last, hfragments, hlast, hboundary, hspelled⟩ :=
    slotFragments_spelled _ hslots hbounds.2.1 hbounds.1
  obtain ⟨full, hfull, hspelledfull⟩ : ∃ full, closeFragments text fragments last
    content.stop = some full ∧
      Spelled text full content.start content.stop := by
    unfold closeFragments
    by_cases hgap : last < content.stop
    · obtain ⟨literal, hliteral⟩ := exists_getText hgap.le hboundary hbounds.2.2
      rw [if_pos hgap, hliteral]
      exact ⟨_, rfl, hspelled.concat rfl hliteral⟩
    · obtain rfl : last = content.stop := le_antisymm hlast (Nat.le_of_not_lt hgap)
      rw [if_neg hgap]
      exact ⟨fragments, rfl, hspelled⟩
  obtain ⟨all, hall, hspelledall⟩ : ∃ all, orContent text content full = some all ∧
      Spelled text all content.start content.stop := by
    unfold orContent
    by_cases hempty : full.isEmpty = true
    · rw [if_pos hempty, hinner]
      exact ⟨_, rfl, inner, by simp [spellings, spelling], hinner⟩
    · rw [if_neg hempty]
      exact ⟨full, rfl, hspelledfull⟩
  obtain ⟨written, hspellings, hwritten⟩ := hspelledall
  rw [hinner] at hwritten
  refine ⟨⟨range, isQuoted raw, all⟩, content, inner, ?_, hcontent, hinner,
    hspellings.trans hwritten.symm⟩
  unfold templateToken
  simp only [hraw, hcontent, hfragments, hfull, hall, Option.bind_eq_bind, Option.bind_some]

end Fragments

/-! ## Spellings of uses -/

section Uses

variable {text raw : Str} {tokenRange : TextRange} {delimiter : Char}

theorem absolute_eq {relative : Nat} (h : tokenRange.start + relative ≤ u32Max) :
    absolute tokenRange relative = tokenRange.start + relative := by
  unfold absolute
  rw [tryU32_eq_some_iff.mpr ⟨h, rfl⟩, Option.getD_some]

/-- What has been read of a token: the text in front of the open delimiter, and the name behind
it. -/
def Opened (delimiter : Char) (front : Str) : Option Nat → Prop
  | none => True
  | some start => ∃ before name, front = before ++ (delimiter :: name) ∧ start = byteLen before

theorem Opened.le {front : Str} {opening : Option Nat} (h : Opened delimiter front opening) :
    opening.getD (byteLen front) ≤ byteLen front := by
  cases opening with
  | none => exact le_rfl
  | some start =>
    obtain ⟨before, name, rfl, rfl⟩ := h
    rw [Option.getD_some, byteLen_append]
    omega

theorem Opened.push {front : Str} {opening : Option Nat}
    (h : Opened delimiter front opening) (c : Char) : Opened delimiter (front ++ [c]) opening := by
  cases opening with
  | none => trivial
  | some start =>
    obtain ⟨before, name, rfl, rfl⟩ := h
    exact ⟨before, name ++ [c], by simp, rfl⟩

theorem new_of_le {start stop : Nat} (h : start ≤ stop) :
    TextRange.new start stop = some ⟨start, stop, h⟩ := dif_pos h

/-- The use between two delimiters is in its place, and spelled so. -/
theorem delimited_eq (hsmall : byteLen text ≤ u32Max) {before name after : Str}
    (hraw : getText text tokenRange.start tokenRange.stop = some raw)
    (heq : raw = before ++ (delimiter :: (name ++ (delimiter :: after)))) :
    (delimited raw tokenRange delimiter (byteLen before)
      (byteLen (before ++ (delimiter :: name)))).name = name ∧
      (delimited raw tokenRange delimiter (byteLen before)
        (byteLen (before ++ (delimiter :: name)))).range =
        ⟨tokenRange.start + byteLen before,
          tokenRange.start + byteLen before + byteLen (delimiter :: (name ++ [delimiter])),
            Nat.le_add_right _ _⟩ := by
  obtain ⟨hstop, hle⟩ := stop_of_getText hraw
  have hlength : byteLen raw = byteLen before +
    (byteLen (delimiter :: (name ++ [delimiter])) + byteLen after) := by
    rw [heq]
    simp
    omega
  have hname : getText raw (byteLen before + byteLen [delimiter])
    (byteLen (before ++ (delimiter :: name))) = some name := by
    refine getText_eq_some_iff.mpr ⟨before ++ [delimiter],
      delimiter :: after, by rw [heq]; simp, by simp, ?_⟩
    simp
    omega
  have hoffset : byteLen (before ++ (delimiter :: name)) + byteLen [delimiter] =
      byteLen before + byteLen (delimiter :: (name ++ [delimiter])) := by
    simp
    omega
  refine ⟨?_, ?_⟩
  · unfold delimited
    rw [hname]
    rfl
  · unfold delimited
    have hstart := @absolute_eq tokenRange (byteLen before) (by omega)
    have hend := @absolute_eq tokenRange (byteLen before + byteLen
      (delimiter :: (name ++ [delimiter]))) (by omega)
    rw [hstart, hoffset, hend, new_of_le (by omega), Option.getD_some, TextRange.mk.injEq]
    exact ⟨rfl, (Nat.add_assoc _ _ _).symm⟩

theorem delimitedFrom_cons (opening : Option Nat) (offset : Nat) (c : Char) (rest : Str) :
    delimitedFrom raw tokenRange delimiter opening offset (c :: rest) =
      if c ≠ delimiter then delimitedFrom raw tokenRange delimiter opening
        (offset + byteLen [c]) rest
      else
        match opening with
        | none => delimitedFrom raw tokenRange delimiter (some offset) (offset + byteLen [c]) rest
        | some start =>
          if offset ≤ start + byteLen [delimiter] then
            delimitedFrom raw tokenRange delimiter none (offset + byteLen [c]) rest
          else
            delimited raw tokenRange delimiter start offset ::
              delimitedFrom raw tokenRange delimiter none (offset + byteLen [c]) rest := by
  cases opening <;> rfl

/-- The uses of a token stand behind one another, each spelled between its delimiters. -/
theorem delimitedFrom_spec (hsmall : byteLen text ≤ u32Max)
    (hraw : getText text tokenRange.start tokenRange.stop = some raw) (rest : Str) :
    ∀ {opening : Option Nat} {front : Str}, raw = front ++ rest → Opened delimiter front opening →
      Follow (·.range.start) (·.range.stop)
          (delimitedFrom raw tokenRange delimiter opening (byteLen front) rest)
          (tokenRange.start + opening.getD (byteLen front)) tokenRange.stop ∧
        ∀ found ∈ delimitedFrom raw tokenRange delimiter opening (byteLen front) rest,
          getText text found.range.start found.range.stop =
            some (delimiter :: (found.name ++ [delimiter])) := by
  obtain ⟨hstop, -⟩ := stop_of_getText hraw
  induction rest with
  | nil =>
    intro opening front heq hopened
    have hle := hopened.le
    rw [List.append_nil] at heq
    rw [← heq] at hle ⊢
    refine ⟨?_, fun found h => absurd h List.not_mem_nil⟩
    show tokenRange.start + opening.getD (byteLen raw) ≤ tokenRange.stop
    omega
  | cons c rest ih =>
    intro opening front heq hopened
    have hnext : byteLen front + byteLen [c] = byteLen (front ++ [c]) :=
      (byteLen_append front [c]).symm
    have hrest : raw = (front ++ [c]) ++ rest := by
      rw [heq]
      simp
    rw [delimitedFrom_cons, hnext]
    by_cases hc : c ≠ delimiter
    · rw [if_pos hc]
      obtain ⟨hfollow, hspelled⟩ := ih hrest (hopened.push c)
      refine ⟨hfollow.widen ?_ le_rfl, hspelled⟩
      cases opening with
      | none =>
        rw [Option.getD_none, Option.getD_none, byteLen_append]
        omega
      | some start => exact le_rfl
    rw [if_neg hc]
    obtain rfl : c = delimiter := not_not.mp hc
    cases opening with
    | none => exact ih hrest ⟨front, [], rfl, rfl⟩
    | some start =>
      obtain ⟨before, name, rfl, rfl⟩ := hopened
      obtain ⟨hfollow, hspelled⟩ := ih hrest (show Opened c _ none from trivial)
      rw [Option.getD_none] at hfollow
      dsimp only
      rw [Option.getD_some]
      split_ifs with hempty
      · refine ⟨hfollow.widen ?_ le_rfl, hspelled⟩
        rw [byteLen_append, byteLen_append]
        omega
      · have hsplit : raw = before ++ (c :: (name ++ (c :: rest))) := by
          rw [heq]
          simp
        obtain ⟨hname, hrange⟩ := delimited_eq hsmall hraw hsplit
        generalize delimited raw tokenRange c (byteLen before) (byteLen (before ++ c :: name)) =
          found at hname hrange
        have htext : getText text found.range.start found.range.stop =
          some (c :: (found.name ++ [c])) := by
          have hsplit' : getText text tokenRange.start tokenRange.stop =
            some (before ++ ((c :: (name ++ [c])) ++ rest)) := by
            rw [hraw, hsplit]
            simp
          rw [hname, hrange]
          exact getText_inside hsplit'
        refine ⟨⟨?_, found.range.le, hfollow.widen ?_ le_rfl⟩, fun other hother => ?_⟩
        · show tokenRange.start + byteLen before ≤ found.range.start
          rw [hrange]
        · show found.range.stop ≤ tokenRange.start + byteLen (before ++ c :: name ++ [c])
          rw [hrange]
          simp
          omega
        · rcases List.mem_cons.mp hother with rfl | hother
          · exact htext
          · exact hspelled other hother

end Uses

/-! ## Uses of a file -/

section File

variable {source : Source} {definitions : Option (List TextRange)} {delimiter : Char}
    {token : SyntaxToken}

theorem rangesOverlap_comm (left right : TextRange) : rangesOverlap left right =
    rangesOverlap right left := by
  unfold rangesOverlap
  rw [decide_eq_decide]
  exact and_comm

theorem rangesOverlap_of_le {left right : TextRange} (h : left.stop ≤ right.start) :
    rangesOverlap left right = false := by
  unfold rangesOverlap
  rw [decide_eq_false_iff_not]
  omega

/-- The uses of a token are inside it, behind one another, and outside the heads of conditional
blocks. -/
theorem follow_tokenOccurrences :
    Follow (·.reference.range.start) (·.reference.range.stop)
        (tokenOccurrences source definitions delimiter token)
        token.range.start token.range.stop ∧
      ∀ occurrence ∈ tokenOccurrences source definitions delimiter token,
        (∀ conditional ∈ source.conditionals,
          rangesOverlap occurrence.reference.range conditional.conditionRange = false) ∧
        getText source.text occurrence.reference.range.start occurrence.reference.range.stop =
          some (occurrence.delimiter :: (occurrence.reference.name ++ [occurrence.delimiter])) := by
  have hnone : Follow (·.reference.range.start) (·.reference.range.stop)
    ([] : List ParameterOccurrence)
      token.range.start token.range.stop := token.range.le
  unfold tokenOccurrences
  split_ifs with hkind
  · cases hraw : getText source.text token.range.start token.range.stop with
    | none => exact ⟨hnone, fun occurrence h => absurd h List.not_mem_nil⟩
    | some raw =>
      obtain ⟨hfollow, hspelled⟩ := @delimitedFrom_spec _ _ _ delimiter source.small hraw raw none
        [] rfl trivial
      have hrecorded : ∀ (found : Delimited) (occurrence : ParameterOccurrence),
          (if (source.conditionals.any fun conditional =>
            rangesOverlap found.range conditional.conditionRange) = true then none
            else (recordedOwner source definitions found.range).map fun owner =>
              (⟨⟨found.name, found.range, found.nameRange, owner⟩, delimiter⟩ :
                ParameterOccurrence)) = some occurrence →
          (∀ conditional ∈ source.conditionals, rangesOverlap found.range
            conditional.conditionRange = false) ∧ occurrence.reference.range = found.range ∧
            occurrence.reference.name = found.name ∧
              occurrence.delimiter = delimiter := by
        intro found occurrence h
        split_ifs at h with hhead
        obtain ⟨owner, -, rfl⟩ := Option.map_eq_some_iff.mp h
        refine ⟨fun conditional hmem => ?_, rfl, rfl, rfl⟩
        exact Bool.eq_false_iff.mpr fun hoverlap =>
          hhead (List.any_eq_true.mpr ⟨conditional, hmem, hoverlap⟩)
      refine ⟨hfollow.filterMap fun found occurrence h => ?_, fun occurrence hoccurrence => ?_⟩
      · obtain ⟨-, hrange, -⟩ := hrecorded found occurrence h
        exact ⟨congrArg TextRange.start hrange, congrArg TextRange.stop hrange⟩
      · obtain ⟨found, hfound, h⟩ := List.mem_filterMap.mp hoccurrence
        obtain ⟨hheads, hrange, hname, hdelimiter⟩ := hrecorded found occurrence h
        rw [hrange, hname, hdelimiter]
        exact ⟨hheads, hspelled found hfound⟩
  · exact ⟨hnone, fun occurrence h => absurd h List.not_mem_nil⟩

/-- The uses of one token that two delimiters find are apart. -/
def ApartIn (source : Source) (definitions : Option (List TextRange))
    (delimiter delimiter' : Char) : Prop :=
  ∀ token ∈ source.tokens, ∀ occurrence ∈ tokenOccurrences source definitions delimiter token,
    ∀ occurrence' ∈ tokenOccurrences source definitions delimiter' token,
      rangesOverlap occurrence.reference.range occurrence'.reference.range = false

/-- Two uses share no text. -/
def Distinct (left right : ParameterOccurrence) : Prop :=
  rangesOverlap left.reference.range right.reference.range = false

theorem range_conditionalOccurrence {conditional : HirParameterConditional}
    {occurrence : ParameterOccurrence}
    (h : conditionalOccurrence source definitions delimiter conditional = some occurrence) :
    occurrence.reference.range = conditional.conditionRange := by
  obtain ⟨owner, -, rfl⟩ := Option.map_eq_some_iff.mp h
  rfl

theorem apart_tokens {token' : SyntaxToken} (h : token ∈ source.tokens)
    (h' : token' ∈ source.tokens) : token = token' ∨ token.range.stop ≤ token'.range.start ∨
    token'.range.stop ≤ token.range.start := by
  have : Std.Symm fun left right : SyntaxToken =>
      left = right ∨ left.range.stop ≤ right.range.start ∨ right.range.stop ≤ left.range.start :=
    ⟨fun _ _ h => h.imp Eq.symm Or.symm⟩
  have hpairs : source.tokens.Pairwise fun left right =>
      left = right ∨ left.range.stop ≤ right.range.start ∨ right.range.stop ≤ left.range.start :=
    source.follow.pairwise.imp fun hle => .inr (.inl hle)
  by_cases heq : token = token'
  · exact .inl heq
  · exact hpairs.forall h h' heq

/-- A use is spelled between its delimiters, or it is the head of a conditional block. -/
theorem spelled_occurrence {delimiters : List Char} {occurrence : ParameterOccurrence}
    (h : occurrence ∈ occurrences source definitions delimiters) :
    (∃ delimiter, getText source.text occurrence.reference.range.start
      occurrence.reference.range.stop =
      some (delimiter :: (occurrence.reference.name ++ [delimiter]))) ∨
    ∃ conditional ∈ source.conditionals, occurrence.reference.range =
      conditional.conditionRange := by
  rcases List.mem_append.mp h with h | h
  · obtain ⟨delimiter, -, h⟩ := List.mem_flatMap.mp h
    obtain ⟨token, htoken, h⟩ := List.mem_flatMap.mp h
    exact .inl ⟨_, (follow_tokenOccurrences.2 occurrence h).2⟩
  · obtain ⟨conditional, hmem, h⟩ := List.mem_filterMap.mp h
    exact .inr ⟨conditional, hmem, range_conditionalOccurrence h⟩

/-- The uses of a file are apart exactly where those that two of its delimiters find in one token
are. -/
theorem pairwise_occurrences (delimiters : List Char) :
    (occurrences source definitions delimiters).Pairwise Distinct ↔
      delimiters.Pairwise (ApartIn source definitions) := by
  have hheads : (source.conditionals.filterMap
    (conditionalOccurrence source definitions (delimiters.head?.getD '$'))).Pairwise
      Distinct := by
    refine List.pairwise_filterMap.mpr (source.heads.imp fun h left hleft right hright => ?_)
    rw [Distinct, range_conditionalOccurrence hleft, range_conditionalOccurrence hright]
    exact h
  have hone : ∀ delimiter,
    (source.tokens.flatMap (tokenOccurrences source definitions delimiter)).Pairwise Distinct :=
    fun delimiter => (source.follow.flatMap fun _ _ => follow_tokenOccurrences.1).pairwise.imp
      rangesOverlap_of_le
  have hcross : ∀ left ∈ delimiters.flatMap fun delimiter =>
    source.tokens.flatMap (tokenOccurrences source definitions delimiter),
      ∀ right ∈ source.conditionals.filterMap
        (conditionalOccurrence source definitions (delimiters.head?.getD '$')),
        Distinct left right := by
    intro left hleft right hright
    obtain ⟨delimiter, -, hleft⟩ := List.mem_flatMap.mp hleft
    obtain ⟨token, htoken, hleft⟩ := List.mem_flatMap.mp hleft
    obtain ⟨conditional, hconditional, hright⟩ := List.mem_filterMap.mp hright
    rw [Distinct, range_conditionalOccurrence hright]
    exact (follow_tokenOccurrences.2 left hleft).1 conditional hconditional
  unfold occurrences
  rw [List.pairwise_append, List.pairwise_flatMap]
  constructor
  · rintro ⟨⟨-, h⟩, -⟩
    refine h.imp fun h token htoken left hleft right hright => ?_
    exact h left (List.mem_flatMap.mpr ⟨token, htoken, hleft⟩) right
      (List.mem_flatMap.mpr ⟨token, htoken, hright⟩)
  · intro h
    refine ⟨⟨fun delimiter _ => hone delimiter, h.imp fun h left hleft right hright => ?_⟩,
      hheads, hcross⟩
    obtain ⟨token, htoken, hleft⟩ := List.mem_flatMap.mp hleft
    obtain ⟨token', htoken', hright⟩ := List.mem_flatMap.mp hright
    have hinside := follow_tokenOccurrences.1.mem hleft
    have hinside' := follow_tokenOccurrences.1.mem hright
    rcases apart_tokens htoken htoken' with rfl | hle | hle
    · exact h token htoken left hleft right hright
    · exact rangesOverlap_of_le (hinside.2.trans (hle.trans hinside'.1))
    · rw [Distinct, rangesOverlap_comm]
      exact rangesOverlap_of_le (hinside'.2.trans (hle.trans hinside.1))

theorem references_lowerFile (source : Source) (path : Str)
    (rules : List ProfileTokenDefinitionRule) (definitions : Option (List TextRange)) :
    (lowerFile source (some path) rules definitions).2 = [] ∧ delimitersOf rules path = ['$'] ∨
      (lowerFile source (some path) rules definitions).2 =
        sortByKey (·.range.start)
          ((occurrences source definitions (delimitersOf rules path)).map (·.reference)) := by
  unfold lowerFile
  dsimp only
  split_ifs with h
  · exact .inl ⟨rfl, if_pos h.1⟩
  · exact .inr rfl

/-- What is recorded of a file: the uses are sorted, share no text, and are spelled with their
delimiters or are heads of conditional blocks; and a token is cut without loss, at whatever uses. -/
structure Lossless (source : Source) (logicalPath : Option Str)
    (rules : List ProfileTokenDefinitionRule)
    (definitions : Option (List TextRange)) : Prop where
  sorted : (lowerFile source logicalPath rules definitions).2.Pairwise fun left right =>
    left.range.start ≤ right.range.start
  apart : (lowerFile source logicalPath rules definitions).2.Pairwise fun left right =>
    rangesOverlap left.range right.range = false
  spelled : ∀ reference ∈ (lowerFile source logicalPath rules definitions).2,
    (∃ delimiter, getText source.text reference.range.start reference.range.stop =
      some (delimiter :: (reference.name ++ [delimiter]))) ∨
    ∃ conditional ∈ source.conditionals, reference.range = conditional.conditionRange
  fragments : ∀ (range : TextRange) (raw : Str), getText source.text range.start
    range.stop = some raw → ∀ references : List ParameterReference,
      (∀ reference ∈ references,
        (getText source.text reference.range.start reference.range.stop).isSome = true) →
        ∃ token content inner, templateToken source.text range references = some token ∧
          contentRange raw range = some content ∧ getText source.text content.start
            content.stop = some inner ∧ spellings source.text token.fragments = some inner

/-- **Cutting a token loses nothing, and the uses of a file are in order and apart** exactly if
those that the delimiters of two token definitions find in one token are apart. -/
theorem template_tokens_iff (source : Source) (logicalPath : Option Str)
    (rules : List ProfileTokenDefinitionRule)
    (definitions : Option (List TextRange)) : Lossless source logicalPath rules definitions ↔
      ∀ path ∈ logicalPath, (delimitersOf rules path).Pairwise (ApartIn source definitions) := by
  have hsymm : Std.Symm fun left right : ParameterReference =>
    rangesOverlap left.range right.range = false :=
    ⟨fun left right h => (rangesOverlap_comm right.range left.range).trans h⟩
  have hfragments := fun (range : TextRange) (raw : Str)
    (h : getText source.text range.start range.stop = some raw) =>
    templateToken_spelled h
  cases logicalPath with
  | none => exact ⟨fun _ path h => (nomatch h), fun _ =>
      ⟨.nil, .nil, fun _ h => absurd h List.not_mem_nil, hfragments⟩⟩
  | some path =>
    have hpath : (∀ other ∈ some path, (delimitersOf rules other).Pairwise
      (ApartIn source definitions)) ↔
        (delimitersOf rules path).Pairwise (ApartIn source definitions) :=
      ⟨fun h => h path rfl, fun h other hother => by rwa [← Option.some.inj hother]⟩
    rw [hpath]
    rcases references_lowerFile source path rules definitions with
      ⟨hnone, hdelimiters⟩ | hreferences
    · refine iff_of_true ⟨?_, ?_, ?_, hfragments⟩ ?_
      · rw [hnone]
        exact .nil
      · rw [hnone]
        exact .nil
      · rw [hnone]
        exact fun _ h => absurd h List.not_mem_nil
      · rw [hdelimiters]
        exact List.pairwise_singleton _ _
    · have hperm := perm_sortByKey (fun reference : ParameterReference => reference.range.start)
        ((occurrences source definitions (delimitersOf rules path)).map (·.reference))
      have hapart : (lowerFile source (some path) rules definitions).2.Pairwise
          (fun left right => rangesOverlap left.range right.range = false) ↔
            (delimitersOf rules path).Pairwise (ApartIn source definitions) := by
        rw [hreferences, hperm.pairwise_iff fun {left right} h => hsymm.symm left right h,
          List.pairwise_map]
        exact pairwise_occurrences (delimitersOf rules path)
      refine ⟨fun h => hapart.mp h.apart, fun h =>
        ⟨?_, hapart.mpr h, fun reference hmem => ?_, hfragments⟩⟩
      · rw [hreferences]
        exact pairwise_sortByKey _ _
      · rw [hreferences, hperm.mem_iff] at hmem
        obtain ⟨occurrence, hoccurrence, rfl⟩ := List.mem_map.mp hmem
        exact spelled_occurrence hoccurrence

end File

/-! ## Parsed files -/

/-- The conditional of a parameter block, where its condition has a name. -/
def parameterConditional (syn : ParsedFile) (block : CstNode) : Option HirParameterConditional := do
  let condition ← childOfKind block .parameterCondition
  let rawText ← syn.text condition.range
  let raw := trim rawText
  let name := if raw.head? = some '!' then raw.tail else raw
  if name = [] then none
  else
    let offset := ((Substrings.find name rawText).map fun i => byteLen (rawText.take i)).getD 0
    let start := min (condition.range.start + (tryU32 offset).getD 0) u32Max
    let stop := min (start + (tryU32 (byteLen name)).getD 0) u32Max
    some ⟨name, block.range, condition.range, (TextRange.new start stop).getD condition.range⟩

theorem range_parameterConditional {syn : ParsedFile} {block : CstNode}
    {conditional : HirParameterConditional}
    (h : parameterConditional syn block = some conditional) :
    conditional.conditionRange = block.conditionRange := by
  unfold parameterConditional at h
  obtain ⟨condition, hcondition, h⟩ := Option.bind_eq_some_iff.mp h
  obtain ⟨rawText, -, h⟩ := Option.bind_eq_some_iff.mp h
  rw [CstNode.conditionRange, hcondition]
  dsimp only at h
  split_ifs at h <;> cases h <;> rfl

/-- The parser makes such a file of every source below 1 GiB, with the parameter blocks of its
tree. -/
theorem exists_source {source : Str} (hlen : byteLen source < 2 ^ 30)
    (properties : List HirProperty) :
    ∃ file root, ∃ parsed : Source, ParadoxCode.Parser.parse .script source = some file ∧
      file.root = some root ∧ parsed.text = source ∧ parsed.tokens = file.tokens ∧
      parsed.properties = properties ∧
      parsed.conditionals = root.parameterBlocks.filterMap (parameterConditional file) := by
  obtain ⟨file, root, hparse, hroot, -, hplace⟩ := Script.exists_root hlen
  have hblocks := hplace.conditions
  rw [CstNode.allParameterBlocks, CstNode.allParameterBlocks, List.append_nil] at hblocks
  have hheads := hblocks.filterMap fun block conditional
    (h : parameterConditional file block = some conditional) =>
    ⟨congrArg TextRange.start (range_parameterConditional h),
      congrArg TextRange.stop (range_parameterConditional h)⟩
  have hsmall : byteLen source ≤ u32Max := by
    have : 2 ^ 30 ≤ u32Max := by decide
    omega
  exact ⟨file, root, ⟨source, file.tokens, properties, _, hsmall, hplace.follow,
    hheads.pairwise.imp rangesOverlap_of_le⟩, hparse, hroot, rfl, rfl, rfl, rfl⟩

/-- A file with two token definitions: `k = a$b@c$d@`. -/
def crossed : Source where
  text := "k = a$b@c$d@".toList
  tokens := [⟨.bare, .sized 0 1⟩, ⟨.operator, .sized 2 1⟩, ⟨.bare, .sized 4 8⟩]
  properties := [⟨true, .sized 0 12⟩]
  conditionals := []
  small := by decide
  follow := ⟨by decide, by decide, by decide, by decide, by decide, by decide,
    show 12 ≤ byteLen "k = a$b@c$d@".toList by decide⟩
  heads := .nil

/-- The uses `$b@c$` and `@c$d@` share text. -/
theorem not_lossless_crossed :
    ¬ Lossless crossed (some "common/scripted_effects/a.txt".toList)
      [⟨fun _ => true, '$'⟩, ⟨fun _ => true, '@'⟩] none := by
  intro h
  have hapart := h.apart
  revert hapart
  decide

end ParadoxCode.Ide.ParameterTokens
