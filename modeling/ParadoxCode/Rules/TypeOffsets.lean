import ParadoxCode.Rules.TypeExpr

/-!
# Where the parser of type expressions stands

Wherever it stops, what is left is an end of the source. So every failure is reported between two
characters of the source or behind the last one.
-/

namespace ParadoxCode.Rules.TypeExpr

open Scanning

variable {source : Str}

/-! ## Tokens -/

theorem within_skipWhitespace : Within source skipWhitespace := within_skipSpace

theorem within_takeChars (test : Char → Bool) : Within source (takeChars test) := fun _ htext =>
  (List.dropWhile_suffix test).trans htext

theorem within_expect (c : Char) : Within source (expect c) := by
  refine within_skipWhitespace.bind fun _ => within_peek.bind fun found => ?_
  cases found with
  | none => exact within_fail _
  | some found =>
    dsimp only
    split_ifs
    · exact within_bump
    · exact within_fail _

theorem within_readIdent : Within source readIdent := by
  refine within_skipWhitespace.bind fun _ => within_peek.bind fun found => ?_
  cases found with
  | none => exact within_fail _
  | some first =>
    dsimp only
    split_ifs
    · exact within_bump.bind fun _ => (within_takeChars _).bind fun rest => within_pure _
    · exact within_fail _

theorem within_parseParam : Within source parseParam := by
  refine within_skipWhitespace.bind fun _ => within_peek.bind fun found => ?_
  split_ifs
  · exact within_fail _
  · refine within_bump.bind fun _ => within_readIdent.bind fun name =>
      within_skipWhitespace.bind fun _ => ?_
    refine within_peek.bind fun behind => ?_
    split_ifs
    · exact within_fail _
    · exact within_pure _

theorem within_parseSegment : Within source parseSegment := by
  refine within_skipWhitespace.bind fun _ => within_peek.bind fun found => ?_
  split_ifs
  · exact within_parseParam.map _
  · exact within_readIdent.map _

theorem within_parseSegments (n : Nat) : Within source (parseSegments n) := by
  induction n with
  | zero => exact within_pure _
  | succ n ih =>
    refine within_skipWhitespace.bind fun _ => within_peek.bind fun found => ?_
    split_ifs
    · exact within_pure _
    · exact within_bump.bind fun _ => within_parseSegment.bind fun segment =>
        ih.bind fun segments => within_pure _

theorem within_parseArgument : Within source parseArgument := by
  refine within_skipWhitespace.bind fun _ => within_peek.bind fun found => ?_
  split_ifs
  · exact within_parseParam.bind fun param => within_pure _
  · refine within_readIdent.bind fun first => ?_
    split_ifs
    · exact within_fail _
    · refine within_get_bind fun text _ => (within_parseSegments _).bind fun others => ?_
      refine within_skipWhitespace.bind fun _ => within_peek.bind fun behind => ?_
      split_ifs
      · refine within_readIdent.bind fun marker => ?_
        split_ifs
        · exact within_readIdent.bind fun stripPrefix => within_pure _
        · exact within_fail _
      · exact within_pure _

/-! ## Ranges -/

theorem takeNumber_suffix (text : Str) : ∃ number rest, takeNumber text = .ok (number, rest) ∧
    rest <:+ text := by
  unfold takeNumber
  have hdigits := List.dropWhile_suffix (l := text) Char.isDigit
  split
  · rename_i next rest hdot
    rw [hdot] at hdigits
    split_ifs
    · refine ⟨_, _, rfl, (List.dropWhile_suffix _).trans (.trans ?_ hdigits)⟩
      exact List.suffix_cons _ _
    · exact ⟨_, _, rfl, hdigits⟩
  · exact ⟨_, _, rfl, hdigits⟩

theorem within_takeNumber : Within source takeNumber := by
  intro text htext
  obtain ⟨number, rest, hnumber, hrest⟩ := takeNumber_suffix text
  rw [hnumber]
  exact hrest.trans htext

theorem within_parseNumber : Within source parseNumber := by
  refine within_skipWhitespace.bind fun _ => within_get_bind fun start _ =>
    within_peek.bind fun found => ?_
  split_ifs
  · refine within_bump.bind fun _ => within_peek.bind fun digit => ?_
    split_ifs
    · exact within_takeNumber.bind fun number => within_pure _
    · exact within_fail _
  · refine within_peek.bind fun digit => ?_
    split_ifs
    · exact within_takeNumber.bind fun number => within_pure _
    · exact within_pure _

/-- A bound starts in the text. -/
theorem parseNumber_start {text rest : Str} {bound : Option (Number × Str)}
    (h : parseNumber text = .ok (bound, rest)) : ∀ number ∈ bound, number.2 <:+ text := by
  have hskip : skip isWhitespace text <:+ text := List.dropWhile_suffix isWhitespace
  unfold parseNumber at h
  rw [skipWhitespace, skipSpace_bind, get_bind, peek_bind] at h
  split_ifs at h
  · rw [bump_bind, peek_bind] at h
    split_ifs at h
    · obtain ⟨number, left, -, h⟩ := bind_eq_ok.mp h
      obtain ⟨rfl, rfl⟩ := Prod.mk.inj (Except.ok.inj h)
      rintro _ ⟨⟩
      exact hskip
    · cases h
  · rw [peek_bind] at h
    split_ifs at h
    · obtain ⟨number, left, -, h⟩ := bind_eq_ok.mp h
      obtain ⟨rfl, rfl⟩ := Prod.mk.inj (Except.ok.inj h)
      rintro _ ⟨⟩
      exact hskip
    · obtain ⟨rfl, rfl⟩ := Prod.mk.inj (Except.ok.inj h)
      rintro _ ⟨⟩

theorem within_expectDots : Within source expectDots := by
  intro text htext
  have hskip : skip isWhitespace text <:+ source := (List.dropWhile_suffix isWhitespace).trans htext
  unfold expectDots
  split
  · rename_i hdots
    split at hdots
    · rename_i heq
      obtain ⟨-, rfl⟩ := Prod.mk.inj (Except.ok.inj hdots)
      rw [heq] at hskip
      exact ((List.suffix_cons _ _).trans (List.suffix_cons _ _)).trans hskip
    · cases hdots
  · rename_i hdots
    split at hdots
    · cases hdots
    · obtain rfl := Except.error.inj hdots
      exact hskip

theorem brokenAt_mem {kind : ScalarKind} {min max : Option (Number × Str)} {offset : Str}
    (h : brokenAt kind min max = some offset) : ∃ bound, (min = some bound ∨ max = some bound) ∧
    bound.2 = offset := by
  obtain ⟨found, hfound, hoffset⟩ := Option.bind_eq_some_iff.mp h
  obtain ⟨bound, rfl, hbound⟩ := Option.map_eq_some_iff.mp hoffset
  have hmem := List.mem_of_find?_eq_some hfound
  rw [List.mem_cons, List.mem_singleton] at hmem
  exact ⟨bound, hmem.imp Eq.symm Eq.symm, hbound⟩

theorem within_parseRange (kind : ScalarKind) : Within source (parseRange kind) := by
  refine within_skipWhitespace.bind fun _ => within_peek.bind fun found => ?_
  split_ifs
  · exact within_pure _
  · exact within_fail _
  · refine within_get_bind fun rangeOffset hrange => within_bump.bind fun _ => ?_
    refine within_parseNumber.bind_of_ok fun min text _ htext hmin =>
      within_expectDots.bind fun _ => ?_
    refine within_parseNumber.bind_of_ok fun max other _ hother hmax =>
      (within_expect _).bind fun _ => ?_
    split
    · rename_i offset hbroken
      apply within_failAt
      obtain ⟨bound, hbound | hbound, rfl⟩ := brokenAt_mem hbroken
      · exact (parseNumber_start hmin bound hbound).trans htext
      · exact (parseNumber_start hmax bound hbound).trans hother
    · split
      · exact within_failAt hrange _
      · exact within_pure _

/-! ## Queries and alternatives -/

section Literals

variable {literal : Scanning.Parser Message (List LiteralPart)}

theorem within_parseQuerySelector (hliteral : Within source literal) :
    Within source (parseQuerySelector literal) := by
  refine within_skipWhitespace.bind fun _ => within_get_bind fun offset hoffset =>
    within_peek.bind fun found => ?_
  split_ifs
  · refine hliteral.bind fun parts => ?_
    split
    · exact within_pure _
    · exact within_failAt hoffset _
  · refine within_readIdent.bind fun name => within_skipWhitespace.bind fun _ =>
      within_peek.bind fun behind => ?_
    split_ifs
    · exact within_bump.bind fun _ => within_readIdent.bind fun sibling =>
        (within_expect _).bind fun _ => within_pure _
    · exact within_pure _

theorem within_parseValueKind : Within source parseValueKind := by
  refine within_get_bind fun kindOffset hoffset => within_readIdent.bind fun kind => ?_
  split
  · exact within_pure _
  · exact within_failAt hoffset _

theorem within_parseValueKinds (n : Nat) : Within source (parseValueKinds n) := by
  induction n with
  | zero => exact within_pure _
  | succ n ih =>
    refine within_skipWhitespace.bind fun _ => within_peek.bind fun found => ?_
    split_ifs
    · exact within_pure _
    · exact within_bump.bind fun _ => within_parseValueKind.bind fun kind =>
        ih.bind fun kinds => within_pure _

theorem within_parseFilter (hliteral : Within source literal) {offset : Str}
    (hoffset : offset <:+ source)
    (filter : Str) (query : FieldQuery) : Within source
      (parseFilter literal offset filter query) := by
  unfold parseFilter
  split
  · exact (within_parseQuerySelector hliteral).bind fun selector => within_pure _
  · exact within_readIdent.bind fun scope => within_pure _
  · refine within_readIdent.bind fun keyword => ?_
    split
    · exact within_pure _
    · exact within_failAt hoffset _
  · refine (within_expect _).bind fun _ => within_parseValueKind.bind fun kind =>
      within_get_bind fun text _ => ?_
    exact (within_parseValueKinds _).bind fun kinds => (within_expect _).bind fun _ => within_pure _
  · refine within_readIdent.bind fun arguments => ?_
    split_ifs
    · exact within_failAt hoffset _
    · exact within_pure _
  · exact within_readIdent.bind fun capability => within_pure _
  · exact within_failAt hoffset _

theorem within_parseFilters (hliteral : Within source literal) (n : Nat) (seen : List Str)
    (query : FieldQuery) : Within source (parseFilters literal n seen query) := by
  induction n generalizing seen query with
  | zero => exact within_pure _
  | succ n ih =>
    refine within_skipWhitespace.bind fun _ => within_peek.bind fun found => ?_
    split_ifs
    · exact within_pure _
    · refine within_bump.bind fun _ => within_skipWhitespace.bind fun _ =>
        within_get_bind fun offset hoffset => ?_
      refine within_readIdent.bind fun filter => ?_
      split_ifs
      · exact within_failAt hoffset _
      · refine (within_expect _).bind fun _ => ?_
        exact (within_parseFilter hliteral hoffset filter query).bind fun query => ih _ _

theorem within_parseQuery (hliteral : Within source literal) (projection : QueryProjection) :
    Within source (parseQuery literal projection) := by
  refine (within_expect _).bind fun _ => within_readIdent.bind fun schema =>
    within_get_bind fun text _ => ?_
  refine (within_parseFilters hliteral _ _ _).bind fun query => (within_expect _).bind fun _ => ?_
  split_ifs
  · exact within_fail _
  · exact within_fail _
  · exact within_fail _
  · exact within_pure _

theorem within_parseKeyword (hliteral : Within source literal) {start : Str}
    (hstart : start <:+ source)
    (keyword : Str) : Within source (parseKeyword literal start keyword) := by
  unfold parseKeyword
  split
  · exact (within_parseRange _).map _
  · split
    · exact (within_parseQuery hliteral _).map _
    · split_ifs
      · refine within_skipWhitespace.bind fun _ => within_peek.bind fun found => ?_
        split_ifs
        · exact within_bump.bind fun _ => within_readIdent.bind fun name =>
            (within_expect _).bind fun _ => within_pure _
        · exact within_pure _
      · split
        · refine (within_expect _).bind fun _ => within_parseArgument.bind fun argument => ?_
          exact (within_expect _).bind fun _ => within_pure _
        · exact within_failAt hstart _
      · split
        · refine (within_expect _).bind fun _ => within_parseArgument.bind fun argument => ?_
          exact (within_expect _).bind fun _ => within_pure _
        · exact within_failAt hstart _

theorem within_parsePrimary (hliteral : Within source literal) :
    Within source (parsePrimary literal) := by
  refine within_skipWhitespace.bind fun _ => within_get_bind fun start hstart =>
    within_peek.bind fun found => ?_
  cases found with
  | none => exact within_fail _
  | some first =>
    dsimp only
    split_ifs
    · exact within_parseParam.map _
    · exact hliteral.map _
    · exact within_readIdent.bind fun keyword => within_parseKeyword hliteral hstart keyword
    · exact within_fail _

theorem within_parseAlternatives (hliteral : Within source literal) (n : Nat) :
    Within source (parseAlternatives literal n) := by
  induction n with
  | zero => exact within_pure _
  | succ n ih =>
    refine within_skipWhitespace.bind fun _ => within_peek.bind fun found => ?_
    split_ifs
    · exact within_pure _
    · refine within_bump.bind fun _ => (within_parsePrimary hliteral).bind fun primary => ?_
      exact ih.bind fun primaries => within_pure _

end Literals

/-! ## Literals -/

section Holes

variable {expr : Scanning.Parser Message Expr}

theorem within_parseParts (hexpr : Within source expr) (quoted : Bool) {opening : Str}
    (hopening : opening <:+ source) (n : Nat) (parts : List LiteralPart) (gathered : Str) :
    Within source (parseParts expr quoted opening n parts gathered) := by
  induction n generalizing parts gathered with
  | zero =>
    unfold parseParts
    split_ifs
    · exact within_failAt hopening _
    · exact within_pure _
  | succ n ih =>
    refine within_get_bind fun start hstart => within_peek.bind fun found => ?_
    cases found with
    | none =>
      dsimp only
      split_ifs
      · exact within_failAt hopening _
      · exact within_pure _
    | some next =>
      dsimp only
      split_ifs
      · exact within_bump.bind fun _ => within_pure _
      · refine within_bump.bind fun _ => within_peek.bind fun escaped => ?_
        cases escaped with
        | none => exact within_fail _
        | some escaped =>
          dsimp only
          split_ifs
          · exact within_bump.bind fun _ => ih _ _
          · exact within_failAt hstart _
      · exact within_bump.bind fun _ => hexpr.bind fun hole =>
          (within_expect _).bind fun _ => ih _ _
      · exact within_bump.bind fun _ => ih _ _

theorem within_parseLiteralParts (hexpr : Within source expr) (quoted : Bool) :
    Within source (parseLiteralParts expr quoted) := by
  refine within_get_bind fun opening hopening => ?_
  split_ifs
  · exact (within_expect _).bind fun _ => within_get_bind fun text _ =>
      within_parseParts hexpr quoted hopening _ _ _
  · exact within_get_bind fun text _ => within_parseParts hexpr quoted hopening _ _ _

end Holes

/-! ## Expressions -/

theorem within_parseExpr (level : Nat) : Within source (parseExpr level) := by
  induction level with
  | zero => exact within_skipWhitespace.bind fun _ => within_peek.bind fun found => within_fail _
  | succ level ih =>
    have hliteral := within_parseLiteralParts ih true
    refine (within_parsePrimary hliteral).bind fun first => within_get_bind fun text _ => ?_
    exact (within_parseAlternatives hliteral _).bind fun others => within_pure _

/-- An offset between two characters of the source, or behind the last one. -/
def Boundary (source : Str) (offset : Nat) : Prop := ∃ front rest, source = front ++ rest ∧
    offset = byteLen front

theorem locate_boundary {failure : Failure Message} (h : failure.rest <:+ source) :
    Boundary source (locate source failure).offset := by
  obtain ⟨front, hfront⟩ := h
  refine ⟨front, failure.rest, hfront.symm, ?_⟩
  unfold locate
  rw [← hfront, byteLen_append, Nat.add_sub_cancel_right]

section Reports

variable {α : Type} {p : Scanning.Parser Message α}

/-- A failure of a parser of the whole source. -/
theorem boundary_of_error (hp : Within source p) {failure : Failure Message}
    (h : p source = .error failure) : Boundary source (locate source failure).offset := by
  have hwithin := hp source (List.suffix_refl source)
  rw [h] at hwithin
  exact locate_boundary hwithin

/-- What a parser of the whole source does not take. -/
theorem boundary_of_trailing (hp : Within source p) {a : α} {left : Str}
    (h : p source = .ok (a, left))
    (message : Message) : Boundary source
      (locate source ⟨skip isWhitespace left, message⟩).offset := by
  have hwithin := hp source (List.suffix_refl source)
  rw [h] at hwithin
  exact locate_boundary ((List.dropWhile_suffix isWhitespace).trans hwithin)

end Reports

theorem parse_offset {error : ParseError} (h : parse source = .error error) :
    Boundary source error.offset := by
  have hexpr : Within source (parseExpr source.length) := within_parseExpr _
  unfold parse at h
  cases hresult : parseExpr source.length source with
  | error failure =>
    rw [hresult] at h
    obtain rfl := Except.error.inj h
    exact boundary_of_error hexpr hresult
  | ok result =>
    rw [hresult] at h
    dsimp only at h
    split at h
    · cases h
    · rename_i found rest hskip
      obtain rfl := Except.error.inj h
      exact hskip ▸ boundary_of_trailing hexpr hresult _

theorem parseTemplate_offset {error : ParseError} (h : parseTemplate source = .error error) :
    Boundary source error.offset := by
  have hparts : Within source (parseLiteralParts (parseExpr source.length) false) :=
    within_parseLiteralParts (within_parseExpr _) false
  unfold parseTemplate at h
  cases hresult : parseLiteralParts (parseExpr source.length) false source with
  | error failure =>
    rw [hresult] at h
    obtain rfl := Except.error.inj h
    exact boundary_of_error hparts hresult
  | ok result =>
    rw [hresult] at h
    dsimp only at h
    split at h
    · cases h
    · rename_i found rest hskip
      obtain rfl := Except.error.inj h
      exact hskip ▸ boundary_of_trailing hparts hresult _

/-! ## Templates -/

/-- Without a closing quote the loop only stops at the end. -/
theorem parseParts_left {expr : Scanning.Parser Message Expr} (hexpr : ∀ source, Within source expr)
    {opening : Str}
    {n : Nat} {parts result : List LiteralPart} {gathered text left : Str} (hlen : text.length ≤ n)
    (h : parseParts expr false opening n parts gathered text = .ok (result, left)) : left = [] := by
  induction n generalizing parts gathered text with
  | zero =>
    obtain rfl : text = [] := List.length_eq_zero_iff.mp (by omega)
    exact (Prod.mk.inj (Except.ok.inj h)).2.symm
  | succ n ih =>
    unfold parseParts at h
    rw [get_bind, peek_bind] at h
    cases text with
    | nil => exact (Prod.mk.inj (Except.ok.inj h)).2.symm
    | cons next rest =>
      rw [List.length_cons] at hlen
      rw [List.head?_cons] at h
      dsimp only at h
      rw [if_neg fun hquote => Bool.noConfusion hquote.2] at h
      split_ifs at h with hbackslash hbrace
      · rw [bump_bind, List.tail_cons, peek_bind] at h
        cases rest with
        | nil => cases h
        | cons escaped rest =>
          rw [List.length_cons] at hlen
          rw [List.head?_cons] at h
          dsimp only at h
          split_ifs at h
          · exact ih (by rw [List.tail_cons]; omega) h
          · cases h
      · rw [bump_bind, List.tail_cons] at h
        obtain ⟨hole, behind, hhole, h⟩ := bind_eq_ok.mp h
        obtain ⟨⟨⟩, last, hclose, h⟩ := bind_eq_ok.mp h
        have hbehind := hexpr rest rest (List.suffix_refl rest)
        rw [hhole] at hbehind
        have hlast := within_expect '\x7D' behind hbehind
        rw [hclose] at hlast
        have hle := List.IsSuffix.length_le hlast
        exact ih (by omega) h
      · rw [bump_bind, List.tail_cons] at h
        exact ih (by omega) h

end ParadoxCode.Rules.TypeExpr
