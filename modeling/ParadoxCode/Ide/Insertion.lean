import ParadoxCode.Parser.QuotedScript

/-!
# Snippets and quotes

`insertion.rs` of the ide crate: a generated snippet escapes `\`, `$` and `}` with a backslash and
has numbered tab stops, and a quoted script escapes `"` and `\` with a backslash. The loops read a
snippet as literal characters and tab stops (`pieces`); a snippet is read back from how its pieces
are spelled (`pieces_spellings`), and one layer of quotes changes the literal pieces only
(`pieces_quotedInsertion`).
-/

namespace ParadoxCode.Ide

open ParadoxCode.Parser (encodeQuotedScriptText encodeQuotedScriptText_append)

/-! ## The layers -/

/-- `snippet_literal`. -/
def snippetLiteral (text : Str) : Str :=
  text.flatMap fun c => if c = '\\' ∨ c = '$' then ['\\', c] else [c]

/-- What a backslash escapes in a snippet. -/
def isEscaped (c : Char) : Bool := c == '\\' || c == '$' || c == '\x7d'

/-- The buffers of `transform`. -/
structure Transform where
  result : Str := []
  literal : Str := []

/-- The closure `flush`. -/
def Transform.flush (quote : Bool) (state : Transform) : Transform where
  result := state.result ++
    if quote = true then snippetLiteral (encodeQuotedScriptText state.literal) else state.literal
  literal := []

theorem length_dropWhile_le (p : Char → Bool) (text : Str) :
    (text.dropWhile p).length ≤ text.length :=
  (List.dropWhile_suffix p).length_le

/-- The loop of `transform`. -/
def transformFrom (quote : Bool) : Str → Transform → Transform
  | [], state => state.flush quote
  | c :: rest, state =>
    if c = '\\' ∧ rest.head?.any isEscaped = true then
      transformFrom quote rest.tail { state with literal := state.literal ++ rest.head?.toList }
    else if c = '$' ∧ rest.head?.any Char.isDigit = true then
      let state := state.flush quote
      transformFrom quote (rest.dropWhile Char.isDigit)
        { state with
          result := state.result ++ if quote = true then
            '$' :: rest.takeWhile Char.isDigit else [] }
    else transformFrom quote rest { state with literal := state.literal ++ [c] }
  termination_by text => text.length
  decreasing_by
    · simp only [List.length_tail, List.length_cons]
      omega
    · exact Nat.lt_succ_of_le (length_dropWhile_le _ _)
    · exact Nat.lt_succ_self _

/-- `transform`. -/
def transform (text : Str) (quote : Bool) : Str := (transformFrom quote text {}).result

/-- `snippet_plain_text`. -/
def snippetPlainText (text : Str) : Str := transform text false

/-- `quoted_insertion`. -/
def quotedInsertion (text : Str) (snippet : Bool) : Str :=
  if snippet = true then transform text true else encodeQuotedScriptText text

/-- The loop of `snippet_trial`. -/
def snippetTrialFrom (stem : Str) : Str → Str × List Str → Str × List Str
  | [], state => state
  | c :: rest, (output, markers) =>
    if c = '\\' ∧ rest.head?.any isEscaped = true then
      snippetTrialFrom stem rest.tail (output ++ rest.head?.toList, markers)
    else if c = '$' ∧ rest.head?.any Char.isDigit = true then
      let marker := stem ++ '_' :: rest.takeWhile Char.isDigit
      snippetTrialFrom stem (rest.dropWhile Char.isDigit) (output ++ marker, markers ++ [marker])
    else snippetTrialFrom stem rest (output ++ [c], markers)
  termination_by text => text.length
  decreasing_by
    · simp only [List.length_tail, List.length_cons]
      omega
    · exact Nat.lt_succ_of_le (length_dropWhile_le _ _)
    · exact Nat.lt_succ_self _

/-- `snippet_trial`: the text with a marker for each tab stop, and the markers. -/
def snippetTrial (text stem : Str) : Str × List Str := snippetTrialFrom stem text ([], [])

/-! ## Pieces -/

/-- A piece of a snippet. -/
inductive Piece where
  | literal (c : Char)
  | tabStop (number : Str)
  deriving DecidableEq

namespace Piece

def spelling : Piece → Str
  | literal c => snippetLiteral [c]
  | tabStop number => '$' :: number

def plain : Piece → Str
  | literal c => [c]
  | tabStop _ => []

def encoded : Piece → List Piece
  | literal c => (encodeQuotedScriptText [c]).map literal
  | tabStop number => [tabStop number]

def marker (stem : Str) : Piece → Option Str
  | literal _ => none
  | tabStop number => some (stem ++ '_' :: number)

/-- Whether a piece would go on with the number of a tab stop before it. -/
def startsDigit : Piece → Bool
  | literal c => c.isDigit
  | tabStop _ => false

end Piece

/-- The pieces that a snippet is read as. -/
def pieces : Str → List Piece
  | [] => []
  | c :: rest =>
    if c = '\\' ∧ rest.head?.any isEscaped = true then
      rest.head?.toList.map .literal ++ pieces rest.tail
    else if c = '$' ∧ rest.head?.any Char.isDigit = true then
      .tabStop (rest.takeWhile Char.isDigit) :: pieces (rest.dropWhile Char.isDigit)
    else .literal c :: pieces rest
  termination_by text => text.length
  decreasing_by
    · simp only [List.length_tail, List.length_cons]
      omega
    · exact Nat.lt_succ_of_le (length_dropWhile_le _ _)
    · exact Nat.lt_succ_self _

theorem snippetLiteral_append (text more : Str) :
    snippetLiteral (text ++ more) = snippetLiteral text ++ snippetLiteral more :=
      List.flatMap_append

/-- What the buffers are written as. -/
def Transform.written (quote : Bool) (state : Transform) : Str := (state.flush quote).result

/-- What `transform` writes for a piece. -/
def Piece.written (quote : Bool) (piece : Piece) : Str :=
  if quote = true then piece.encoded.flatMap Piece.spelling else piece.plain

theorem spelling_map_literal (text : Str) :
    (text.map Piece.literal).flatMap Piece.spelling = snippetLiteral text := by
  unfold snippetLiteral
  rw [List.flatMap_map]
  refine List.flatMap_congr fun c _ => ?_
  simp [Piece.spelling, snippetLiteral]

theorem written_push (quote : Bool) (state : Transform) (c : Char) :
    ({ state with literal := state.literal ++ [c] } : Transform).written quote =
      state.written quote ++ (Piece.literal c).written quote := by
  unfold Transform.written Transform.flush Piece.written
  cases quote with
  | false => simp [Piece.plain]
  | true =>
    simp only [if_true, Piece.encoded]
    rw [spelling_map_literal, encodeQuotedScriptText_append, snippetLiteral_append,
      List.append_assoc]

theorem written_tabStop (quote : Bool) (state : Transform) (number : Str) :
    ({ state.flush quote with
        result := (state.flush quote).result ++ if quote = true then '$' :: number else [] } :
        Transform).written quote = state.written quote ++ (Piece.tabStop number).written quote := by
  unfold Transform.written Transform.flush Piece.written
  cases quote <;> simp [Piece.encoded, Piece.plain, Piece.spelling, snippetLiteral,
    encodeQuotedScriptText]

/-- `transform` writes piece by piece. -/
theorem transformFrom_result (quote : Bool) (text : Str) : ∀ state : Transform,
    (transformFrom quote text state).result =
      state.written quote ++ (pieces text).flatMap (Piece.written quote) := by
  induction text using pieces.induct with
  | case1 =>
    intro state
    rw [transformFrom, pieces, List.flatMap_nil, List.append_nil]
    rfl
  | case2 c rest hescaped ih =>
    intro state
    have hnext := hescaped.2
    rw [transformFrom, pieces, if_pos hescaped, if_pos hescaped, ih, List.flatMap_append,
      ← List.append_assoc]
    cases rest with
    | nil => cases hnext
    | cons next rest =>
      rw [List.head?_cons, Option.toList_some, written_push]
      simp
  | case3 c rest hescaped hstop ih =>
    intro state
    rw [transformFrom, pieces, if_neg hescaped, if_neg hescaped, if_pos hstop, if_pos hstop, ih,
      List.flatMap_cons, ← List.append_assoc, written_tabStop]
  | case4 c rest hescaped hstop ih =>
    intro state
    rw [transformFrom, pieces, if_neg hescaped, if_neg hescaped, if_neg hstop, if_neg hstop, ih,
      List.flatMap_cons, ← List.append_assoc, written_push]

theorem transform_eq (text : Str) (quote : Bool) :
    transform text quote = (pieces text).flatMap (Piece.written quote) := by
  unfold transform
  rw [transformFrom_result]
  cases quote <;> rfl

theorem snippetPlainText_eq (text : Str) : snippetPlainText text =
    (pieces text).flatMap Piece.plain :=
  transform_eq text false

theorem quotedInsertion_eq (text : Str) :
    quotedInsertion text true = ((pieces text).flatMap Piece.encoded).flatMap Piece.spelling := by
  rw [List.flatMap_assoc]
  exact transform_eq text true

/-- `snippet_trial` has a marker for each tab stop. -/
theorem snippetTrial_markers (text stem : Str) :
    (snippetTrial text stem).2 = (pieces text).filterMap (Piece.marker stem) := by
  have hfrom : ∀ state : Str × List Str,
      (snippetTrialFrom stem text state).2 = state.2 ++ (pieces text).filterMap
        (Piece.marker stem) := by
    induction text using pieces.induct with
    | case1 =>
      intro state
      rw [snippetTrialFrom, pieces, List.filterMap_nil, List.append_nil]
    | case2 c rest hescaped ih =>
      intro state
      have hnone : (rest.head?.toList.map Piece.literal).filterMap (Piece.marker stem) = [] := by
        cases rest <;> rfl
      rw [snippetTrialFrom, pieces, if_pos hescaped, if_pos hescaped, ih,
        List.filterMap_append, hnone, List.nil_append]
    | case3 c rest hescaped hstop ih =>
      intro state
      rw [snippetTrialFrom, pieces, if_neg hescaped, if_neg hescaped, if_pos hstop,
        if_pos hstop, ih, List.filterMap_cons, List.append_assoc]
      rfl
    | case4 c rest hescaped hstop ih =>
      intro state
      rw [snippetTrialFrom, pieces, if_neg hescaped, if_neg hescaped, if_neg hstop,
        if_neg hstop, ih]
      rfl
  exact hfrom ([], [])

/-! ## Reading a snippet back -/

/-- The pieces can be told apart when they are spelled one after another. -/
inductive Separate : List Piece → Prop
  | nil : Separate []
  | literal {c : Char} {ps : List Piece} (rest : Separate ps) : Separate (.literal c :: ps)
  | tabStop {number : Str} {ps : List Piece} (nonempty : number ≠ [])
      (digits : ∀ c ∈ number, c.isDigit = true) (ends : ps.head?.any Piece.startsDigit = false)
      (rest : Separate ps) : Separate (.tabStop number :: ps)

theorem Separate.literals (text : Str) {ps : List Piece} (h : Separate ps) :
    Separate (text.map Piece.literal ++ ps) := by
  induction text with
  | nil => exact h
  | cons c text ih => exact ih.literal

theorem isDigit_of_isEscaped {c : Char} (h : isEscaped c = true) : c.isDigit = false := by
  unfold isEscaped at h
  rw [Bool.or_eq_true, Bool.or_eq_true, beq_iff_eq, beq_iff_eq, beq_iff_eq] at h
  obtain (rfl | rfl) | rfl := h <;> rfl

/-- The pieces of a text without a digit in front have none there either. -/
theorem startsDigit_pieces {text : Str} (h : text.head?.any Char.isDigit = false) :
    (pieces text).head?.any Piece.startsDigit = false := by
  cases text with
  | nil =>
    rw [pieces]
    rfl
  | cons c rest =>
    rw [pieces]
    split_ifs with hescaped hstop
    · cases rest with
      | nil => exact absurd hescaped.2 Bool.false_ne_true
      | cons next rest => exact isDigit_of_isEscaped hescaped.2
    · rfl
    · exact h

theorem head?_dropWhile_isDigit (text : Str) :
    (text.dropWhile Char.isDigit).head?.any Char.isDigit = false := by
  induction text with
  | nil => rfl
  | cons c text ih =>
    rw [List.dropWhile_cons]
    split_ifs with hc
    · exact ih
    · simpa using hc

/-- The pieces of a snippet can be told apart. -/
theorem separate_pieces (text : Str) : Separate (pieces text) := by
  induction text using pieces.induct with
  | case1 =>
    rw [pieces]
    exact .nil
  | case2 c rest hescaped ih =>
    rw [pieces, if_pos hescaped]
    exact ih.literals _
  | case3 c rest hescaped hstop ih =>
    rw [pieces, if_neg hescaped, if_pos hstop]
    refine .tabStop ?_ (fun d hd => List.all_eq_true.mp List.all_takeWhile d hd)
      (startsDigit_pieces (head?_dropWhile_isDigit rest)) ih
    cases rest with
    | nil => exact absurd hstop.2 Bool.false_ne_true
    | cons next rest =>
      have hdigit : next.isDigit = true := hstop.2
      rw [List.takeWhile_cons_of_pos hdigit]
      exact List.cons_ne_nil _ _
  | case4 c rest hescaped hstop ih =>
    rw [pieces, if_neg hescaped, if_neg hstop]
    exact ih.literal

/-- The quotes of a layer do not join pieces. -/
theorem Separate.encoded {ps : List Piece} (h : Separate ps) :
    Separate (ps.flatMap Piece.encoded) := by
  induction h with
  | nil => exact .nil
  | literal rest ih => exact ih.literals _
  | @tabStop number ps nonempty digits ends rest ih =>
    refine .tabStop nonempty digits ?_ ih
    match ps, ends with
    | [], _ => rfl
    | .tabStop _ :: _, _ => rfl
    | .literal c :: ps, ends =>
      show ((encodeQuotedScriptText [c]).map Piece.literal ++ ps.flatMap Piece.encoded).head?.any
        _ = false
      rw [encodeQuotedScriptText, List.flatMap_singleton]
      split_ifs
      · rfl
      · rfl
      · exact ends

/-- What pieces are spelled as has a digit in front only if they do. -/
theorem head?_spellings {ps : List Piece} (h : ps.head?.any Piece.startsDigit = false) :
    (ps.flatMap Piece.spelling).head?.any Char.isDigit = false := by
  match ps, h with
  | [], _ => rfl
  | .tabStop _ :: _, _ => rfl
  | .literal c :: ps, h =>
    rw [List.flatMap_cons, Piece.spelling, snippetLiteral, List.flatMap_singleton]
    split_ifs
    · rfl
    · exact h

theorem takeWhile_digits {number rest : Str} (hnumber : ∀ c ∈ number, c.isDigit = true)
    (hrest : rest.head?.any Char.isDigit = false) :
    (number ++ rest).takeWhile Char.isDigit = number := by
  rw [List.takeWhile_append_of_pos hnumber]
  cases rest with
  | nil => exact List.append_nil _
  | cons c rest =>
    have hc : ¬ c.isDigit = true := Bool.eq_false_iff.mp hrest
    rw [List.takeWhile_cons_of_neg hc, List.append_nil]

theorem dropWhile_digits {number rest : Str} (hnumber : ∀ c ∈ number, c.isDigit = true)
    (hrest : rest.head?.any Char.isDigit = false) :
    (number ++ rest).dropWhile Char.isDigit = rest := by
  rw [List.dropWhile_append_of_pos hnumber]
  cases rest with
  | nil => rfl
  | cons c rest =>
    have hc : ¬ c.isDigit = true := Bool.eq_false_iff.mp hrest
    exact List.dropWhile_cons_of_neg hc

/-- Pieces are read back from their spellings. -/
theorem pieces_spellings {ps : List Piece} (h : Separate ps) :
    pieces (ps.flatMap Piece.spelling) = ps := by
  induction h with
  | nil => rw [List.flatMap_nil, pieces]
  | @literal c ps rest ih =>
    rw [List.flatMap_cons, Piece.spelling, snippetLiteral, List.flatMap_singleton]
    split_ifs with hc
    · -- an escape of the snippet
      have hescaped : isEscaped c = true := by
        obtain rfl | rfl := hc <;> rfl
      rw [List.cons_append, pieces, if_pos ⟨rfl, hescaped⟩]
      exact congrArg (_ :: ·) ih
    · rw [not_or] at hc
      rw [List.singleton_append, pieces, if_neg fun h => hc.1 h.1, if_neg fun h => hc.2 h.1, ih]
  | @tabStop number ps nonempty digits ends rest ih =>
    have hnext := head?_spellings ends
    have hdigit : (number ++ ps.flatMap Piece.spelling).head?.any Char.isDigit = true := by
      obtain ⟨c, number, rfl⟩ := List.exists_cons_of_ne_nil nonempty
      exact digits c List.mem_cons_self
    rw [List.flatMap_cons, Piece.spelling, List.cons_append, pieces,
      if_neg fun h => absurd h.1 (by decide), if_pos ⟨rfl, hdigit⟩, takeWhile_digits digits hnext,
      dropWhile_digits digits hnext, ih]

/-! ## Layers commute -/

theorem plain_encoded (ps : List Piece) :
    (ps.flatMap Piece.encoded).flatMap Piece.plain = encodeQuotedScriptText
      (ps.flatMap Piece.plain) := by
  have hliterals : ∀ text : Str, (text.map Piece.literal).flatMap Piece.plain = text :=
    fun text => by
    rw [List.flatMap_map]
    exact List.flatMap_singleton' text
  induction ps with
  | nil => rfl
  | cons piece ps ih =>
    rw [List.flatMap_cons, List.flatMap_append, ih, List.flatMap_cons,
      encodeQuotedScriptText_append]
    cases piece with
    | literal c => rw [Piece.encoded, hliterals, Piece.plain]
    | tabStop number => rfl

theorem markers_encoded (stem : Str) (ps : List Piece) :
    (ps.flatMap Piece.encoded).filterMap (Piece.marker stem) =
      ps.filterMap (Piece.marker stem) := by
  have hliterals : ∀ text : Str, (text.map Piece.literal).filterMap (Piece.marker stem) = [] :=
    fun text => by
    rw [List.filterMap_map, List.filterMap_eq_nil_iff]
    exact fun _ _ => rfl
  induction ps with
  | nil => rfl
  | cons piece ps ih =>
    rw [List.flatMap_cons, List.filterMap_append, ih]
    cases piece with
    | literal c => rw [Piece.encoded, hliterals, List.nil_append, List.filterMap_cons_none rfl]
    | tabStop number => rfl

/-- One layer of quotes changes the literal pieces only. -/
theorem pieces_quotedInsertion (text : Str) :
    pieces (quotedInsertion text true) = (pieces text).flatMap Piece.encoded := by
  rw [quotedInsertion_eq, pieces_spellings (separate_pieces text).encoded]

theorem pieces_snippetLiteral (text : Str) : pieces (snippetLiteral text) = text.map .literal := by
  have hseparate : Separate (text.map Piece.literal) := by
    rw [← List.append_nil (text.map _)]
    exact Separate.nil.literals text
  rw [← spelling_map_literal, pieces_spellings hseparate]

/-- The loop of `edit` over the layers of quotes. -/
def insertionLayers (layers : Nat) (text : Str) (snippet : Bool) : Str :=
  (fun encoded => quotedInsertion encoded snippet)^[layers] text

theorem snippetPlainText_quotedInsertion (text : Str) :
    snippetPlainText (quotedInsertion text true) = encodeQuotedScriptText
      (snippetPlainText text) := by
  rw [snippetPlainText_eq, pieces_quotedInsertion, plain_encoded, snippetPlainText_eq]

theorem markers_quotedInsertion (text stem : Str) :
    (snippetTrial (quotedInsertion text true) stem).2 = (snippetTrial text stem).2 := by
  rw [snippetTrial_markers, pieces_quotedInsertion, markers_encoded, snippetTrial_markers]

/-- The layers of snippets and quotes commute, for any number of quotes. -/
theorem insertion_layers_commute :
    (∀ text : Str, snippetPlainText (snippetLiteral text) = text) ∧
      (∀ text : Str, snippetPlainText (quotedInsertion text true) =
        encodeQuotedScriptText (snippetPlainText text)) ∧
      (∀ text stem : Str, (snippetTrial (quotedInsertion text true) stem).2 =
        (snippetTrial text stem).2) ∧
      ∀ (layers : Nat) (text : Str),
        snippetPlainText (insertionLayers layers text true) =
            insertionLayers layers (snippetPlainText text) false ∧
          ∀ stem, (snippetTrial (insertionLayers layers text true) stem).2 =
            (snippetTrial text stem).2 := by
  refine ⟨fun text => ?_, snippetPlainText_quotedInsertion, markers_quotedInsertion,
    fun layers text => ?_⟩
  · rw [snippetPlainText_eq, pieces_snippetLiteral, List.flatMap_map]
    exact List.flatMap_singleton' text
  · unfold insertionLayers
    induction layers with
    | zero => exact ⟨rfl, fun _ => rfl⟩
    | succ layers ih =>
      rw [Function.iterate_succ_apply', Function.iterate_succ_apply',
        snippetPlainText_quotedInsertion, ih.1]
      exact ⟨rfl, fun stem => by rw [markers_quotedInsertion, ih.2]⟩

end ParadoxCode.Ide
