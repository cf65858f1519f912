import ParadoxCode.Rules.TypeSound

/-!
# What the parser of type expressions has to accept

Whatever the grammar spells in a text, the parser takes from it, as long as what follows cannot
belong to it.
-/

namespace ParadoxCode.Rules.TypeExpr

open Scanning (skip Blank blank_skip peek bump bind_of_ok get_bind peek_bind bump_bind
    skipSpace_bind pure_apply reads_pure
  reads_of_skip)

/-- Parsers run and read up to whitespace. -/
abbrev Runs {α : Type} (p : Parser α) (a : α) (text rest : Str) : Prop :=
  Scanning.Runs isWhitespace p a text rest

abbrev Reads {α : Type} (p : Parser α) (a : α) (text rest : Str) : Prop :=
  Scanning.Reads isWhitespace p a text rest

/-- The next character that is not blank. -/
def next (text : Str) : Option Char := (skip isWhitespace text).head?

/-! ## Steps -/

theorem length_skip_le (text : Str) : (skip isWhitespace text).length ≤ text.length :=
  (blank_skip text).length_le

section Steps

variable {α β : Type} {a : α} {b : β} {text rest : Str}

variable {f : Option Char → Parser α}

/-- A parser that looks at the next character first. -/
theorem reads_next (h : Runs (f (next text)) a (skip isWhitespace text) rest) :
    Reads (do skipWhitespace; f (← peek)) a text rest :=
  reads_of_skip h

/-- A parser that keeps where it starts. -/
theorem reads_start {f : Str → Option Char → Parser α}
    (h : Runs (f (skip isWhitespace text) (next text)) a (skip isWhitespace text) rest) :
    Reads (do skipWhitespace; let start ← get; f start (← peek)) a text rest :=
  reads_of_skip h

/-- A character is passed. -/
theorem runs_bump {c : Char} {f : Unit → Parser α} (h : Runs (f ()) a text rest) :
    Runs (bump >>= f) a (c :: text) rest :=
  h

theorem runs_get {f : Str → Parser α} (h : Runs (f text) a text rest) :
    Runs (do f (← get)) a text rest := h

theorem runs_peek (h : Runs (f text.head?) a text rest) : Runs (peek >>= f) a text rest := h

theorem runs_of_ok {p : Parser α} (h : p text = .ok (a, rest)) : Runs p a text rest :=
  ⟨rest, h, rfl⟩

theorem runs_skip_pure (a : α) (text : Str) : Runs (pure a) a (skip isWhitespace text) text :=
  (reads_pure a text).runs_skip

/-- A loop is given as many turns as there are characters. -/
theorem reads_loop {p : Nat → Parser α} {f : α → Parser β} {middle : Str}
    (hp : ∀ n, (skip isWhitespace text).length ≤ n → Reads (p n) a text middle)
    (hf : Reads (f a) b middle rest) : Reads (do let a ← p (← get).length; f a) b text rest := by
  intro start hstart
  refine (hp start.length ?_ start hstart).bind hf
  rw [← hstart]
  exact length_skip_le start

end Steps

/-! ## Lengths -/

/-- What is left is not longer. -/
def Shrinks (spelling : Spelling) : Prop := ∀ text rest, spelling text rest →
    rest.length ≤ text.length

theorem shrinks_eq : Shrinks Eq := by
  rintro text rest rfl
  exact le_rfl

variable {text rest : Str}

theorem length_token {token : Str} (h : Token token text rest) :
    token.length + rest.length ≤ text.length := by
  have hle := h.length_le
  rwa [List.length_append] at hle

variable {c : Char}

theorem length_mark (h : Mark c text rest) : rest.length < text.length := by
  have hle := length_token h
  rw [List.length_singleton] at hle
  omega

theorem length_name {name : Str} (h : Name name text rest) : rest.length < text.length := by
  obtain ⟨⟨first, others, rfl, -⟩, htoken, -⟩ := h
  have hle := length_token htoken
  rw [List.length_cons] at hle
  omega

theorem length_paramAt {param : Param} (h : ParamAt param text rest) :
    rest.length < text.length := by
  obtain ⟨middle, hmark, hname⟩ := h
  exact (length_name hname).trans (length_mark hmark)

theorem length_segmentAt {segment : Segment} (h : SegmentAt segment text rest) :
    rest.length < text.length := by
  cases segment with
  | name name => exact length_name h
  | param param => exact length_paramAt h

theorem shrinks_segmentsAt (segments : List Segment) : Shrinks (SegmentsAt segments) := by
  induction segments with
  | nil => exact shrinks_eq
  | cons segment segments ih =>
    rintro text rest ⟨dot, middle, hmark, hsegment, hsegments, -⟩
    have hrest := ih _ _ hsegments
    have hmiddle := length_segmentAt hsegment
    have hdot := length_mark hmark
    omega

/-! ## Tokens -/

theorem isWhitespace_of_isIdentStart (h : isIdentStart c = true) : isWhitespace c = false := by
  unfold isIdentStart at h
  delta Char.isAlpha Char.isUpper Char.isLower at h
  simp only [Bool.or_eq_true, Bool.and_eq_true, decide_eq_true_eq, beq_iff_eq, ge_iff_le,
    UInt32.le_iff_toNat_le] at h
  have hrange : 65 ≤ c.toNat ∧ c.toNat ≤ 122 := by
    rcases h with (⟨hlo, hhi⟩ | ⟨hlo, hhi⟩) | rfl
    · exact ⟨hlo, hhi.trans (by decide)⟩
    · exact ⟨le_trans (by decide) hlo, hhi⟩
    · decide
  unfold isWhitespace
  simp only [Bool.or_eq_false_iff, Bool.and_eq_false_iff, decide_eq_false_iff_not,
    beq_eq_false_iff_ne]
  omega

theorem isWhitespace_of_isDigit (h : c.isDigit = true) : isWhitespace c = false := by
  simp only [Char.isDigit, Bool.and_eq_true, decide_eq_true_eq, ge_iff_le,
    UInt32.le_iff_toNat_le] at h
  have hrange : 48 ≤ c.toNat ∧ c.toNat ≤ 57 := h
  unfold isWhitespace
  simp only [Bool.or_eq_false_iff, Bool.and_eq_false_iff, decide_eq_false_iff_not,
    beq_eq_false_iff_ne]
  omega

theorem skip_of_token {first : Char} {others : Str} (hfirst : isWhitespace first = false)
    (h : Token (first :: others) text rest) : skip isWhitespace text = first :: others ++ rest := by
  rw [Blank.skip_eq h]
  exact Scanning.skip_of_head fun c hc => by
    obtain rfl := Option.some.inj hc
    exact hfirst

theorem skip_of_mark (hc : isWhitespace c = false) (h : Mark c text rest) :
    skip isWhitespace text = c :: rest :=
  skip_of_token hc h

theorem skip_of_name {name : Str} (h : Name name text rest) :
    skip isWhitespace text = name ++ rest := by
  obtain ⟨⟨first, others, rfl, hfirst, -⟩, htoken, -⟩ := h
  exact skip_of_token (isWhitespace_of_isIdentStart hfirst) htoken

theorem next_of_mark (hc : isWhitespace c = false) (h : Mark c text rest) : next text = some c := by
  unfold next
  rw [skip_of_mark hc h]
  rfl

/-- The next character belongs to the name. -/
theorem next_of_name {name : Str} (h : Name name text rest) : ∃ c, next text = some c ∧
    isIdentStart c = true := by
  unfold next
  rw [skip_of_name h]
  obtain ⟨⟨first, others, rfl, hfirst, -⟩, -, -⟩ := h
  exact ⟨first, rfl, hfirst⟩

/-- Where the mark stands, `expect` leaves exactly what follows. -/
theorem expect_of_skip (h : skip isWhitespace text = c :: rest) :
    expect c text = .ok ((), rest) := by
  rw [expect_apply, h]
  exact if_pos rfl

theorem reads_expect (hc : isWhitespace c = false) (h : Mark c text rest) :
    Reads (expect c) () text rest :=
  fun _ hstart => ⟨rest, expect_of_skip (hstart.trans (skip_of_mark hc h)), rfl⟩

theorem takeWhile_of_ends {p : Char → Bool} {word : Str} (hword : ∀ c ∈ word, p c = true)
    (hrest : ∀ c ∈ rest.head?, p c = false) : (word ++ rest).takeWhile p = word ∧
    (word ++ rest).dropWhile p = rest := by
  rw [List.takeWhile_append_of_pos hword, List.dropWhile_append_of_pos hword]
  cases rest with
  | nil => simp
  | cons c rest => simp [hrest c rfl]

theorem reads_readIdent {name : Str} (h : Name name text rest) :
    Reads readIdent name text rest := by
  intro start hstart
  rw [skip_of_name h] at hstart
  obtain ⟨⟨first, others, rfl, hfirst, hothers⟩, -, hrest⟩ := h
  refine ⟨rest, ?_, rfl⟩
  rw [readIdent_apply, hstart]
  obtain ⟨htake, hdrop⟩ := takeWhile_of_ends hothers hrest
  simp [hfirst, htake, hdrop]

/-! ## Paths -/

theorem reads_parseParam {param : Param} (h : ParamAt param text rest)
    (hnext : next rest ≠ some '.') : Reads parseParam param text rest := by
  obtain ⟨middle, hmark, hname⟩ := h
  apply reads_next
  rw [next_of_mark (by decide) hmark, if_neg (by simp), skip_of_mark (by decide) hmark]
  apply runs_bump
  refine (reads_readIdent hname).runs.bind (reads_next ?_)
  rw [if_neg hnext]
  exact runs_skip_pure param rest

theorem reads_parseSegment {segment : Segment} (h : SegmentAt segment text rest)
    (hnext : (∃ param, segment = .param param) → next rest ≠ some '.') :
    Reads parseSegment segment text rest := by
  apply reads_next
  cases segment with
  | param param =>
    obtain ⟨middle, hmark, hname⟩ := h
    rw [next_of_mark (by decide) hmark, if_pos rfl]
    exact ((reads_parseParam ⟨middle, hmark, hname⟩ (hnext ⟨param, rfl⟩)).map
      Segment.param).runs_skip
  | name name =>
    obtain ⟨c, hc, hstart⟩ := next_of_name h
    rw [hc, if_neg (by rintro ⟨⟩; cases hstart)]
    exact ((reads_readIdent h).map Segment.name).runs_skip

theorem reads_parseSegments {n : Nat} {segments : List Segment} (h : SegmentsAt segments text rest)
    (hnext : next rest ≠ some '.') (hlen : (skip isWhitespace text).length ≤ n) :
    Reads (parseSegments n) segments text rest := by
  induction n generalizing segments text with
  | zero =>
    cases segments with
    | nil => exact h ▸ reads_pure [] text
    | cons segment segments =>
      obtain ⟨dot, middle, hmark, -⟩ := h
      rw [skip_of_mark (by decide) hmark, List.length_cons] at hlen
      omega
  | succ n ih =>
    unfold parseSegments
    apply reads_next
    cases segments with
    | nil =>
      obtain rfl : text = rest := h
      rw [if_pos hnext]
      exact runs_skip_pure [] text
    | cons segment segments =>
      obtain ⟨dot, middle, hmark, hsegment, hsegments, hlast⟩ := h
      rw [skip_of_mark (by decide) hmark, List.length_cons] at hlen
      rw [next_of_mark (by decide) hmark, if_neg (by simp), skip_of_mark (by decide) hmark]
      apply runs_bump
      have hmiddle := length_segmentAt hsegment
      have hskip := length_skip_le middle
      have hparam : (∃ param, segment = .param param) → next middle ≠ some '.' := by
        intro hparam
        have hnil := hlast hparam
        subst hnil
        obtain rfl : middle = rest := hsegments
        exact hnext
      refine (reads_parseSegment hsegment hparam).runs.bind ?_
      exact (ih hsegments (by omega)).bind (reads_pure _ _)

theorem ne_of_isIdentStart {d : Char} (hc : isIdentStart c = true)
    (hd : isIdentStart d = false) : c ≠ d := by
  rintro rfl
  rw [hc] at hd
  cases hd

theorem reads_parseArgument {argument : Argument} (h : ArgumentAt argument text rest)
    (hnext : next rest = some '>') : Reads parseArgument argument text rest := by
  apply reads_next
  match argument, h with
  | .path [.param param], h =>
    obtain ⟨middle, hmark, hname⟩ := h
    rw [next_of_mark (by decide) hmark, if_pos rfl]
    refine (reads_parseParam ⟨middle, hmark, hname⟩ ?_).runs_skip.bind (reads_pure _ _)
    rw [hnext]
    decide
  | .path (.name first :: others), h =>
    obtain ⟨himpl, middle, hname, hothers⟩ := h
    obtain ⟨c, hc, hstart⟩ := next_of_name hname
    rw [hc, if_neg (by rintro ⟨⟩; cases hstart)]
    refine (reads_readIdent hname).runs_skip.bind ?_
    rw [if_neg himpl]
    refine reads_loop (fun n hn => reads_parseSegments hothers (by rw [hnext]; decide) hn)
      (reads_next ?_)
    rw [hnext, if_neg (by decide)]
    exact runs_skip_pure _ rest
  | .stripped (.name first :: others) stripPrefix, h =>
    obtain ⟨himpl, middle, marker, last, hname, hothers, hmarker, hstrip⟩ := h
    obtain ⟨c, hc, hstart⟩ := next_of_name hname
    obtain ⟨d, hd, hmarked⟩ := next_of_name hmarker
    rw [hc, if_neg (by rintro ⟨⟩; cases hstart)]
    refine (reads_readIdent hname).runs_skip.bind ?_
    rw [if_neg himpl]
    refine reads_loop (fun n hn => reads_parseSegments hothers
      (by rw [hd]; rintro ⟨⟩; cases hmarked) hn) (reads_next ?_)
    rw [hd, if_pos (by simpa using hmarked)]
    refine (reads_readIdent hmarker).runs_skip.bind ?_
    rw [if_pos rfl]
    exact (reads_readIdent hstrip).bind (reads_pure _ _)

/-! ## Ranges -/

theorem takeNumber_of_ends {number : Str} (h : IsUnsigned number) (hends : NumberEnds number rest) :
    takeNumber (number ++ rest) = .ok (number, rest) := by
  unfold takeNumber
  cases h with
  | whole digits hne hdigits =>
    obtain ⟨htake, hdrop⟩ := takeWhile_of_ends hdigits hends.1
    rw [htake, hdrop]
    split
    · rename_i next behind
      have hnot : next.isDigit = false := by
        rcases hends.2 with hdot | hfraction
        · have hdigit := hdigits '.' hdot
          exact absurd hdigit (by decide)
        · exact hfraction next rfl rfl
      rw [hnot]
      rfl
    · rfl
  | fraction digits decimals hne hdigits hne' hdecimals =>
    have hdot : ∀ c ∈ ('.' :: decimals ++ rest).head?, c.isDigit = false := by
      rintro c hc
      obtain rfl := Option.some.inj hc
      decide
    obtain ⟨htake, hdrop⟩ := takeWhile_of_ends hdigits hdot
    obtain ⟨first, others, rfl⟩ := List.exists_cons_of_ne_nil hne'
    obtain ⟨htake', hdrop'⟩ := takeWhile_of_ends hdecimals hends.1
    have hfirst : first.isDigit = true := hdecimals first List.mem_cons_self
    rw [List.append_assoc, List.cons_append, List.cons_append]
    rw [List.cons_append, List.cons_append] at htake hdrop
    rw [hdrop, htake]
    simp only [hfirst, if_true]
    rw [List.cons_append] at htake' hdrop'
    rw [htake', hdrop']

theorem exists_of_isUnsigned {number : Number} (h : IsUnsigned number) :
    ∃ first others, number = first :: others ∧ first.isDigit = true := by
  cases h with
  | whole digits hne hdigits =>
    obtain ⟨first, others, rfl⟩ := List.exists_cons_of_ne_nil hne
    exact ⟨first, others, rfl, hdigits first List.mem_cons_self⟩
  | fraction digits decimals hne hdigits =>
    obtain ⟨first, others, rfl⟩ := List.exists_cons_of_ne_nil hne
    exact ⟨first, others ++ '.' :: decimals, rfl, hdigits first List.mem_cons_self⟩

theorem head_isUnsigned {number : Number} (h : IsUnsigned number) (rest : Str) :
    (number ++ rest).head?.any Char.isDigit = true := by
  obtain ⟨first, others, rfl, hfirst⟩ := exists_of_isUnsigned h
  simpa using hfirst

theorem reads_parseNumber {bound : Option Number} (h : BoundAt bound text rest)
    (hnext : bound = none → ∀ c ∈ next rest, c ≠ '-' ∧ c.isDigit = false) :
    Reads parseNumber (bound.map fun number => (number, skip isWhitespace text)) text rest := by
  cases bound with
  | none =>
    obtain rfl : text = rest := h
    have hfree := hnext rfl
    apply reads_of_skip
    apply runs_get
    apply runs_peek
    rw [if_neg (show ¬ (skip isWhitespace text).head? = some '-' from fun hminus =>
      (hfree '-' hminus).1 rfl)]
    apply runs_peek
    rw [if_neg]
    · exact runs_skip_pure none text
    · change ¬ (next text).any Char.isDigit = true
      cases hc : next text with
      | none => simp
      | some c => simp [(hfree c hc).2]
  | some number =>
    obtain ⟨hnumber, htoken, hends⟩ := h
    apply reads_of_skip
    cases hnumber with
    | negative hunsigned =>
      rename_i unsigned
      rw [skip_of_token (by decide) htoken]
      apply runs_get
      apply runs_peek
      rw [List.cons_append, List.head?_cons, if_pos rfl]
      apply runs_bump
      apply runs_peek
      rw [if_pos (head_isUnsigned hunsigned rest)]
      have hends' : NumberEnds unsigned rest :=
        ⟨hends.1, hends.2.imp_left fun hmem => by simpa using hmem⟩
      exact (runs_of_ok (takeNumber_of_ends hunsigned hends')).bind (reads_pure _ _)
    | unsigned hunsigned =>
      have hdigit := head_isUnsigned hunsigned rest
      have hskip : skip isWhitespace text = number ++ rest := by
        obtain ⟨first, others, rfl, hfirst⟩ := exists_of_isUnsigned hunsigned
        exact skip_of_token (isWhitespace_of_isDigit hfirst) htoken
      rw [hskip]
      apply runs_get
      apply runs_peek
      rw [if_neg]
      · apply runs_peek
        rw [if_pos hdigit]
        exact (runs_of_ok (takeNumber_of_ends hunsigned hends)).bind (reads_pure _ _)
      · intro hminus
        rw [hminus] at hdigit
        exact absurd hdigit (by decide)

theorem reads_expectDots (h : Token "..".toList text rest) : Reads expectDots () text rest := by
  intro start hstart
  rw [skip_of_token (by decide) h] at hstart
  refine ⟨rest, ?_, rfl⟩
  unfold expectDots
  rw [hstart]
  rfl

theorem next_of_dots (h : Token "..".toList text rest) : next text = some '.' := by
  unfold next
  rw [skip_of_token (by decide) h]
  rfl

theorem reads_parseRange {kind : ScalarKind} {range : Option Range}
    (h : RangeAt kind range text rest) (hnext : range = none → next rest ≠ some '[') :
    Reads (parseRange kind) range text rest := by
  apply reads_next
  cases range with
  | none =>
    obtain rfl : text = rest := h
    rw [if_pos (hnext rfl)]
    exact runs_skip_pure none text
  | some range =>
    obtain ⟨hfits, opened, bounded, dotted, closed, hopen, hmin, hdots, hmax, hclose⟩ := h
    rw [next_of_mark (by decide) hopen, if_neg (by simp), hfits.1, if_neg (by simp),
      skip_of_mark (by decide) hopen]
    apply runs_get
    apply runs_bump
    have hmin := reads_parseNumber hmin (by
      rintro - c hc
      rw [next_of_dots hdots] at hc
      obtain rfl := Option.some.inj hc
      decide)
    have hmax := reads_parseNumber hmax (by
      rintro - c hc
      rw [next_of_mark (by decide) hclose] at hc
      obtain rfl := Option.some.inj hc
      decide)
    refine hmin.runs.bind ((reads_expectDots hdots).bind
      (hmax.bind ((reads_expect (by decide) hclose).bind ?_)))
    have hbounds : (⟨(range.min.map fun number => (number, skip isWhitespace opened)).map Prod.fst,
        (range.max.map fun number => (number, skip isWhitespace dotted)).map Prod.fst⟩ : Range) =
          range := by
      cases range
      simp [Option.map_map, Function.comp_def]
    have hchecks := (fits_iff_checks hfits.1 _ _).mp (hbounds ▸ hfits)
    rw [hchecks.1]
    dsimp only
    rw [hchecks.2]
    dsimp only
    rw [hbounds]
    exact reads_pure _ rest

/-! ## Queries -/

section Literals

variable {literal : Parser (List LiteralPart)} {spelled : List LiteralPart → Spelling} {bound : Nat}

/-- The parser of literals takes what is spelled in texts that are not too long. -/
def CompleteFor (bound : Nat) (spelled : List LiteralPart → Spelling)
    (literal : Parser (List LiteralPart)) : Prop :=
  ∀ parts text rest, text.length ≤ bound → spelled parts text rest → Reads literal parts text rest

/-- Literals start with a quote, and they are not empty. -/
structure Quoted (spelled : List LiteralPart → Spelling) : Prop where
  opens : ∀ parts text rest, spelled parts text rest → next text = some '\''
  shortens : ∀ parts text rest, spelled parts text rest → rest.length < text.length

theorem shrinks_selectorAt (hquoted : Quoted spelled) (selector : QuerySelector) :
    Shrinks (SelectorAt spelled selector) := by
  cases selector with
  | literal name =>
    rintro text rest (hname | ⟨parts, texts, hparts, -⟩)
    · exact (length_name hname).le
    · exact (hquoted.shortens parts _ _ hparts).le
  | sibling name =>
    rintro text rest ⟨keyword, opened, closed, hkeyword, hopen, hname, hclose⟩
    have h₁ := length_name hkeyword
    have h₂ := length_mark hopen
    have h₃ := length_name hname
    have h₄ := length_mark hclose
    omega

theorem shrinks_valueKindsAt (kinds : List QueryValueKind) : Shrinks (ValueKindsAt kinds) := by
  induction kinds with
  | nil => exact shrinks_eq
  | cons kind kinds ih =>
    rintro text rest ⟨bar, middle, hmark, hname, hkinds⟩
    have h₁ := length_mark hmark
    have h₂ := length_name hname
    have h₃ := ih _ _ hkinds
    omega

theorem shrinks_filterValueAt (hquoted : Quoted spelled) (filter : Filter) :
    Shrinks (FilterValueAt spelled filter) := by
  cases filter with
  | key selector => exact shrinks_selectorAt hquoted selector
  | valueKindAny kind kinds =>
    rintro text rest ⟨opened, middle, closed, hopen, hname, hkinds, hclose⟩
    have h₁ := length_mark hopen
    have h₂ := length_name hname
    have h₃ := shrinks_valueKindsAt kinds _ _ hkinds
    have h₄ := length_mark hclose
    omega
  | scopeAccepts entry => exact fun text rest h => (length_name h).le
  | shape accepted => exact fun text rest h => (length_name h).le
  | callArgs => exact fun text rest h => (length_name h).le
  | capability advertised => exact fun text rest h => (length_name h).le

theorem shrinks_filtersAt (hquoted : Quoted spelled) (filters : List Filter) :
    Shrinks (FiltersAt spelled filters) := by
  induction filters with
  | nil => exact shrinks_eq
  | cons filter filters ih =>
    rintro text rest ⟨comma, keyword, value, middle, hcomma, hname, hequals, hvalue, hfilters⟩
    have h₁ := length_mark hcomma
    have h₂ := length_name hname
    have h₃ := length_mark hequals
    have h₄ := shrinks_filterValueAt hquoted filter _ _ hvalue
    have h₅ := ih _ _ hfilters
    omega

theorem shape_fromKeyword (shape : QueryShape) : QueryShape.fromKeyword shape.keyword =
    some shape := by
  cases shape <;> rfl

theorem valueKind_fromKeyword (kind : QueryValueKind) : QueryValueKind.fromKeyword kind.keyword =
    some kind := by
  cases kind <;> rfl

theorem projection_fromKeyword (projection : QueryProjection) :
    QueryProjection.fromKeyword projection.keyword = some projection := by
  cases projection <;> rfl

theorem filter_fromKeyword (kind : FilterKind) : FilterKind.fromKeyword kind.keyword =
    some kind := by
  cases kind <;> rfl

theorem kind_fromKeyword (kind : ScalarKind) : ScalarKind.fromKeyword kind.keyword = some kind := by
  cases kind <;> rfl

variable {text rest : Str}

theorem reads_parseQuerySelector (hliteral : CompleteFor bound spelled literal)
    (hquoted : Quoted spelled)
    {selector : QuerySelector} (h : SelectorAt spelled selector text rest)
    (hnext : next rest ≠ some '<') (hlen : text.length ≤ bound) :
    Reads (parseQuerySelector literal) selector text rest := by
  apply reads_start
  cases selector with
  | literal name =>
    rcases h with hname | ⟨parts, texts, hparts, htexts, rfl⟩
    · obtain ⟨c, hc, hstart⟩ := next_of_name hname
      rw [hc, if_neg (by rintro ⟨⟩; cases hstart)]
      refine (reads_readIdent hname).runs_skip.bind (reads_next ?_)
      rw [if_neg fun hsibling => hnext hsibling.2]
      exact runs_skip_pure _ rest
    · rw [if_pos (hquoted.opens _ _ _ hparts)]
      refine (hliteral _ _ _ hlen hparts).runs_skip.bind ?_
      rw [htexts]
      exact reads_pure _ rest
  | sibling name =>
    obtain ⟨keyword, opened, closed, hkeyword, hopen, hname, hclose⟩ := h
    obtain ⟨c, hc, hstart⟩ := next_of_name hkeyword
    rw [hc, if_neg (by rintro ⟨⟩; cases hstart)]
    refine (reads_readIdent hkeyword).runs_skip.bind (reads_next ?_)
    rw [if_pos ⟨rfl, next_of_mark (by decide) hopen⟩, skip_of_mark (by decide) hopen]
    apply runs_bump
    exact (reads_readIdent hname).runs.bind ((reads_expect (by decide) hclose).bind
      (reads_pure _ _))

theorem reads_parseValueKind {kind : QueryValueKind} (h : Name kind.keyword text rest) :
    Reads parseValueKind kind text rest := by
  intro start hstart
  apply runs_get
  refine (reads_readIdent h start hstart).bind ?_
  rw [valueKind_fromKeyword]
  exact reads_pure _ rest

theorem reads_parseValueKinds {n : Nat} {kinds : List QueryValueKind}
    (h : ValueKindsAt kinds text rest) (hnext : next rest ≠ some '|')
    (hlen : (skip isWhitespace text).length ≤ n) : Reads (parseValueKinds n) kinds text rest := by
  induction n generalizing kinds text with
  | zero =>
    cases kinds with
    | nil => exact h ▸ reads_pure [] text
    | cons kind kinds =>
      obtain ⟨bar, middle, hmark, -⟩ := h
      rw [skip_of_mark (by decide) hmark, List.length_cons] at hlen
      omega
  | succ n ih =>
    unfold parseValueKinds
    apply reads_next
    cases kinds with
    | nil =>
      obtain rfl : text = rest := h
      rw [if_pos hnext]
      exact runs_skip_pure [] text
    | cons kind kinds =>
      obtain ⟨bar, middle, hmark, hname, hkinds⟩ := h
      rw [skip_of_mark (by decide) hmark, List.length_cons] at hlen
      rw [next_of_mark (by decide) hmark, if_neg (by simp), skip_of_mark (by decide) hmark]
      apply runs_bump
      have hmiddle := length_name hname
      have hskip := length_skip_le middle
      exact (reads_parseValueKind hname).runs.bind ((ih hkinds (by omega)).bind (reads_pure _ _))

/-- A filter is followed by another one or by the end of the query. -/
def FilterEnds (rest : Str) : Prop := next rest = some ',' ∨ next rest = some '>'

theorem reads_parseFilter (hliteral : CompleteFor bound spelled literal) (hquoted : Quoted spelled)
    {filter : Filter} (h : FilterValueAt spelled filter text rest) (hends : FilterEnds rest)
    (hlen : text.length ≤ bound) (offset : Str) (query : FieldQuery) :
    Reads (parseFilter literal offset filter.name query) (filter.apply query) text rest := by
  unfold parseFilter Filter.name
  rw [filter_fromKeyword]
  cases filter with
  | key selector =>
    refine (reads_parseQuerySelector hliteral hquoted h ?_ hlen).bind (reads_pure _ _)
    rcases hends with hnext | hnext <;> rw [hnext] <;> decide
  | scopeAccepts entry => exact (reads_readIdent h).bind (reads_pure _ _)
  | shape accepted =>
    refine (reads_readIdent h).bind ?_
    rw [shape_fromKeyword]
    exact reads_pure _ _
  | valueKindAny kind kinds =>
    obtain ⟨opened, middle, closed, hopen, hname, hkinds, hclose⟩ := h
    refine (reads_expect (by decide) hopen).bind ((reads_parseValueKind hname).bind ?_)
    refine reads_loop (fun n hn => reads_parseValueKinds hkinds
      (by rw [next_of_mark (by decide) hclose]; decide) hn) ?_
    exact (reads_expect (by decide) hclose).bind (reads_pure _ _)
  | callArgs =>
    refine (reads_readIdent h).bind ?_
    rw [if_neg (not_not.mpr rfl)]
    exact reads_pure _ _
  | capability advertised => exact (reads_readIdent h).bind (reads_pure _ _)

theorem filterEnds_of_filtersAt {filters : List Filter} (h : FiltersAt spelled filters text rest)
    (hnext : next rest = some '>') : FilterEnds text := by
  cases filters with
  | nil =>
    obtain rfl : text = rest := h
    exact .inr hnext
  | cons filter filters =>
    obtain ⟨comma, keyword, value, middle, hcomma, -⟩ := h
    exact .inl (next_of_mark (by decide) hcomma)

theorem reads_parseFilters (hliteral : CompleteFor bound spelled literal)
    (hquoted : Quoted spelled) {n : Nat}
    {filters : List Filter} {seen : List Str} {query : FieldQuery}
    (h : FiltersAt spelled filters text rest) (hnext : next rest = some '>')
    (hnodup : (filters.map Filter.name).Nodup) (hnew : ∀ filter ∈ filters, filter.name ∉ seen)
    (hbound : text.length ≤ bound) (hlen : (skip isWhitespace text).length ≤ n) :
    Reads (parseFilters literal n seen query) (filters.foldl Filter.apply query) text rest := by
  induction n generalizing filters seen query text with
  | zero =>
    cases filters with
    | nil => exact h ▸ reads_pure query text
    | cons filter filters =>
      obtain ⟨comma, keyword, value, middle, hcomma, -⟩ := h
      rw [skip_of_mark (by decide) hcomma, List.length_cons] at hlen
      omega
  | succ n ih =>
    unfold parseFilters
    apply reads_next
    cases filters with
    | nil =>
      obtain rfl : text = rest := h
      rw [if_pos (by rw [hnext]; decide)]
      exact runs_skip_pure query text
    | cons filter filters =>
      obtain ⟨comma, keyword, value, middle, hcomma, hname, hequals, hvalue, hfilters⟩ := h
      rw [skip_of_mark (by decide) hcomma, List.length_cons] at hlen
      rw [next_of_mark (by decide) hcomma, if_neg (by simp), skip_of_mark (by decide) hcomma]
      rw [List.map_cons, List.nodup_cons] at hnodup
      apply runs_bump
      refine Scanning.Reads.runs (reads_of_skip ?_)
      apply runs_get
      refine (reads_readIdent hname).runs_skip.bind ?_
      rw [if_neg (hnew filter List.mem_cons_self)]
      have h₁ := length_mark hcomma
      have h₂ := length_name hname
      have h₃ := length_mark hequals
      have h₄ := shrinks_filterValueAt hquoted filter _ _ hvalue
      have h₅ := length_skip_le middle
      have hends := filterEnds_of_filtersAt hfilters hnext
      refine (reads_expect (by decide) hequals).bind ?_
      refine (reads_parseFilter hliteral hquoted hvalue hends (by omega) _ query).bind ?_
      refine ih hfilters hnodup.2 (fun other hother hmem => ?_) (by omega) (by omega)
      rcases List.mem_cons.mp hmem with heq | hmem
      · exact hnodup.1 (heq ▸ List.mem_map_of_mem hother)
      · exact hnew other (List.mem_cons_of_mem _ hother) hmem

theorem reads_parseQuery (hliteral : CompleteFor bound spelled literal) (hquoted : Quoted spelled)
    {query : FieldQuery} (h : QueryAt spelled query text rest) (hbound : text.length ≤ bound) :
    Reads (parseQuery literal query.projection) query text rest := by
  obtain ⟨hfits, schema, filters, opened, named, closed, hopen, hschema, hfilters, hclose,
    hnodup, hquery⟩ := h
  have h₁ := length_mark hopen
  have h₂ := length_name hschema
  refine (reads_expect (by decide) hopen).bind ((reads_readIdent hschema).bind ?_)
  refine reads_loop (fun n hn => reads_parseFilters hliteral hquoted hfilters
    (next_of_mark (by decide) hclose) hnodup (fun _ _ => List.not_mem_nil) (by omega) hn) ?_
  refine (reads_expect (by decide) hclose).bind ?_
  rw [show filters.foldl Filter.apply ⟨schema, query.projection, none, none, none, [], none,
    false⟩ = query from hquery.symm]
  rw [if_neg fun hvalues => hfits.selected hvalues.1 hvalues.2,
    if_neg fun hvalues => hfits.scalar hvalues.1 hvalues.2,
    if_neg fun hcall => hcall.2 (hfits.call hcall.1)]
  exact reads_pure query rest

/-! ## Alternatives -/

/-- Behind an alternative comes another one, the end of a hole or the end of the text. -/
def Ends (rest : Str) : Prop := next rest = none ∨ next rest = some '|' ∨ next rest = some '\x7D'

theorem Ends.ne (h : Ends rest) {c : Char} (hbar : c ≠ '|') (hbrace : c ≠ '\x7D') :
    next rest ≠ some c := by
  rcases h with h | h | h
  · rw [h]
    exact (Option.some_ne_none c).symm
  · rw [h]
    exact fun heq => hbar (Option.some.inj heq).symm
  · rw [h]
    exact fun heq => hbrace (Option.some.inj heq).symm

variable {argument : Argument}

theorem reads_parseConstructor {keyword : Str} {constructor : Argument → Primary} (start : Str)
    (hkind : ScalarKind.fromKeyword keyword = none)
    (hprojection : QueryProjection.fromKeyword keyword = none) (hpath : keyword ≠ "path".toList)
    (hconstructor : constructor? keyword = some constructor) {opened closed : Str}
    (hopen : Mark '<' text opened)
    (hargument : ArgumentAt argument opened closed) (hclose : Mark '>' closed rest) :
    Reads (parseKeyword literal start keyword) (constructor argument) text rest := by
  unfold parseKeyword
  rw [hkind]
  dsimp only
  rw [hprojection]
  dsimp only
  rw [if_neg hpath, hconstructor]
  refine (reads_expect (by decide) hopen).bind ?_
  refine (reads_parseArgument hargument (next_of_mark (by decide) hclose)).bind ?_
  exact (reads_expect (by decide) hclose).bind (reads_pure _ _)

variable {primary : Primary}

/-- An alternative that starts with a keyword. -/
theorem reads_parsePrimary_of_name {keyword : Str} {named : Str} (hname : Name keyword text named)
    (h : Reads (parseKeyword literal (skip isWhitespace text) keyword) primary named rest) :
    Reads (parsePrimary literal) primary text rest := by
  apply reads_start
  obtain ⟨c, hc, hstart⟩ := next_of_name hname
  rw [hc]
  dsimp only
  rw [if_neg (ne_of_isIdentStart hstart (by decide)),
    if_neg (ne_of_isIdentStart hstart (by decide)), if_pos hstart]
  exact (reads_readIdent hname).runs_skip.bind h

theorem reads_parsePrimary (hliteral : CompleteFor bound spelled literal) (hquoted : Quoted spelled)
    (h : PrimaryAt spelled primary text rest) (hends : Ends rest)
    (hbound : text.length ≤ bound) : Reads (parsePrimary literal) primary text rest := by
  cases primary with
  | scalar kind range =>
    obtain ⟨named, hname, hrange⟩ := h
    apply reads_parsePrimary_of_name hname
    unfold parseKeyword
    rw [kind_fromKeyword]
    exact (reads_parseRange hrange fun _ => hends.ne (by decide) (by decide)).map _
  | ref argument =>
    obtain ⟨named, opened, closed, hname, hopen, hargument, hclose⟩ := h
    apply reads_parsePrimary_of_name hname
    exact reads_parseConstructor _ rfl rfl (by decide) rfl hopen hargument hclose
  | define argument =>
    obtain ⟨named, opened, closed, hname, hopen, hargument, hclose⟩ := h
    apply reads_parsePrimary_of_name hname
    exact reads_parseConstructor _ rfl rfl (by decide) rfl hopen hargument hclose
  | enum argument =>
    obtain ⟨named, opened, closed, hname, hopen, hargument, hclose⟩ := h
    apply reads_parsePrimary_of_name hname
    exact reads_parseConstructor _ rfl rfl (by decide) rfl hopen hargument hclose
  | scope argument =>
    obtain ⟨named, opened, closed, hname, hopen, hargument, hclose⟩ := h
    apply reads_parsePrimary_of_name hname
    exact reads_parseConstructor _ rfl rfl (by decide) rfl hopen hargument hclose
  | path category =>
    cases category with
    | none =>
      apply reads_parsePrimary_of_name h
      unfold parseKeyword
      apply reads_next
      rw [if_neg (hends.ne (by decide) (by decide))]
      exact runs_skip_pure _ rest
    | some category =>
      obtain ⟨named, opened, closed, hname, hopen, hcategory, hclose⟩ := h
      apply reads_parsePrimary_of_name hname
      unfold parseKeyword
      apply reads_next
      rw [if_pos (next_of_mark (by decide) hopen), skip_of_mark (by decide) hopen]
      apply runs_bump
      exact (reads_readIdent hcategory).runs.bind
        ((reads_expect (by decide) hclose).bind (reads_pure _ _))
  | literal parts =>
    apply reads_start
    rw [hquoted.opens _ _ _ h]
    exact ((hliteral _ _ _ hbound h).map Primary.literal).runs_skip
  | query query =>
    obtain ⟨named, hname, hquery⟩ := h
    have hlen := length_name hname
    apply reads_parsePrimary_of_name hname
    unfold parseKeyword
    rw [show ScalarKind.fromKeyword query.projection.keyword = none by cases query.projection <;>
      rfl]
    dsimp only
    rw [projection_fromKeyword]
    exact (reads_parseQuery hliteral hquoted hquery (by omega)).map Primary.query
  | param param =>
    obtain ⟨middle, hmark, hname⟩ := h
    apply reads_start
    rw [next_of_mark (by decide) hmark]
    have hreads := reads_parseParam ⟨middle, hmark, hname⟩ (hends.ne (by decide) (by decide))
    exact (hreads.map Primary.param).runs_skip

theorem length_argumentAt (h : ArgumentAt argument text rest) : rest.length < text.length := by
  match argument, h with
  | .path [.param param], h => exact length_paramAt h
  | .path (.name first :: others), h =>
    obtain ⟨-, middle, hname, hothers⟩ := h
    exact (shrinks_segmentsAt others _ _ hothers).trans_lt (length_name hname)
  | .stripped (.name first :: others) stripPrefix, h =>
    obtain ⟨-, middle, marker, last, hname, hothers, hmarker, hstrip⟩ := h
    have h₁ := length_name hname
    have h₂ := shrinks_segmentsAt others _ _ hothers
    have h₃ := length_name hmarker
    have h₄ := length_name hstrip
    omega

theorem shrinks_boundAt (bound : Option Number) : Shrinks (BoundAt bound) := by
  cases bound with
  | none => exact shrinks_eq
  | some number =>
    rintro text rest ⟨-, htoken, -⟩
    have hle := length_token htoken
    omega

theorem shrinks_rangeAt (kind : ScalarKind) (range : Option Range) :
    Shrinks (RangeAt kind range) := by
  cases range with
  | none => exact shrinks_eq
  | some range =>
    rintro text rest ⟨-, opened, bounded, dotted, closed, hopen, hmin, hdots, hmax, hclose⟩
    have h₁ := length_mark hopen
    have h₂ := shrinks_boundAt _ _ _ hmin
    have h₃ := length_token hdots
    have h₄ := shrinks_boundAt _ _ _ hmax
    have h₅ := length_mark hclose
    omega

theorem length_constructorAt {keyword : Str}
    (h : ConstructorAt keyword argument text rest) : rest.length < text.length := by
  obtain ⟨named, opened, closed, hname, hopen, hargument, hclose⟩ := h
  have h₁ := length_name hname
  have h₂ := length_mark hopen
  have h₃ := length_argumentAt hargument
  have h₄ := length_mark hclose
  omega

theorem length_primaryAt (hquoted : Quoted spelled)
    (h : PrimaryAt spelled primary text rest) : rest.length < text.length := by
  cases primary with
  | scalar kind range =>
    obtain ⟨named, hname, hrange⟩ := h
    exact (shrinks_rangeAt kind range _ _ hrange).trans_lt (length_name hname)
  | ref argument => exact length_constructorAt h
  | define argument => exact length_constructorAt h
  | enum argument => exact length_constructorAt h
  | scope argument => exact length_constructorAt h
  | path category =>
    cases category with
    | none => exact length_name h
    | some category =>
      obtain ⟨named, opened, closed, hname, hopen, hcategory, hclose⟩ := h
      have h₁ := length_name hname
      have h₂ := length_mark hopen
      have h₃ := length_name hcategory
      have h₄ := length_mark hclose
      omega
  | literal parts => exact hquoted.shortens _ _ _ h
  | query query =>
    obtain ⟨named, hname, -, schema, filters, opened, behind, closed, hopen, hschema, hfilters,
      hclose, -⟩ := h
    have h₁ := length_name hname
    have h₂ := length_mark hopen
    have h₃ := length_name hschema
    have h₄ := shrinks_filtersAt hquoted filters _ _ hfilters
    have h₅ := length_mark hclose
    omega
  | param param => exact length_paramAt h

theorem shrinks_alternativesAt (hquoted : Quoted spelled) (primaries : List Primary) :
    Shrinks (AlternativesAt spelled primaries) := by
  induction primaries with
  | nil => exact shrinks_eq
  | cons primary primaries ih =>
    rintro text rest ⟨bar, middle, hmark, hprimary, hprimaries⟩
    have h₁ := length_mark hmark
    have h₂ := length_primaryAt hquoted hprimary
    have h₃ := ih _ _ hprimaries
    omega

theorem ends_of_alternativesAt {primaries : List Primary}
    (h : AlternativesAt spelled primaries text rest) (hends : Ends rest) : Ends text := by
  cases primaries with
  | nil =>
    obtain rfl : text = rest := h
    exact hends
  | cons primary primaries =>
    obtain ⟨bar, middle, hmark, -⟩ := h
    exact .inr (.inl (next_of_mark (by decide) hmark))

theorem reads_parseAlternatives (hliteral : CompleteFor bound spelled literal)
    (hquoted : Quoted spelled) {n : Nat}
    {primaries : List Primary} (h : AlternativesAt spelled primaries text rest) (hends : Ends rest)
    (hlast : next rest ≠ some '|') (hbound : text.length ≤ bound)
    (hlen : (skip isWhitespace text).length ≤ n) :
    Reads (parseAlternatives literal n) primaries text rest := by
  induction n generalizing primaries text with
  | zero =>
    cases primaries with
    | nil => exact h ▸ reads_pure [] text
    | cons primary primaries =>
      obtain ⟨bar, middle, hmark, -⟩ := h
      rw [skip_of_mark (by decide) hmark, List.length_cons] at hlen
      omega
  | succ n ih =>
    unfold parseAlternatives
    apply reads_next
    cases primaries with
    | nil =>
      obtain rfl : text = rest := h
      rw [if_pos hlast]
      exact runs_skip_pure [] text
    | cons primary primaries =>
      obtain ⟨bar, middle, hmark, hprimary, hprimaries⟩ := h
      rw [skip_of_mark (by decide) hmark, List.length_cons] at hlen
      rw [next_of_mark (by decide) hmark, if_neg (by simp), skip_of_mark (by decide) hmark]
      apply runs_bump
      have h₁ := length_mark hmark
      have h₂ := length_primaryAt hquoted hprimary
      have h₃ := length_skip_le middle
      have hmiddle := ends_of_alternativesAt hprimaries hends
      refine (reads_parsePrimary hliteral hquoted hprimary hmiddle (by omega)).runs.bind ?_
      exact (ih hprimaries (by omega) (by omega)).bind (reads_pure _ _)

end Literals

/-! ## Literals -/

section Holes

variable {expr : Scanning.Parser Message Expr} {spelled : Expr → Spelling} {bound : Nat}

/-- The parser of expressions takes what is spelled in texts that are not too long, before a hole or
the text ends. -/
def CompleteHoles (bound : Nat) (spelled : Expr → Spelling)
    (expr : Scanning.Parser Message Expr) : Prop :=
  ∀ hole text rest, text.length ≤ bound → next rest = none ∨ next rest = some '\x7D' →
    spelled hole text rest → Reads expr hole text rest

theorem shrinks_piecesAt (hspelled : ∀ hole, Shrinks (spelled hole)) {quoted : Bool}
    (pieces : List Piece) : Shrinks (PiecesAt spelled quoted pieces) := by
  induction pieces with
  | nil => exact shrinks_eq
  | cons piece pieces ih =>
    cases piece with
    | char c =>
      rintro text rest ⟨left, ⟨-, rfl⟩ | ⟨-, rfl⟩, hpieces⟩
      · have hle := ih _ _ hpieces
        rw [List.length_cons]
        omega
      · have hle := ih _ _ hpieces
        rw [List.length_cons, List.length_cons]
        omega
    | hole hole =>
      rintro text rest ⟨opened, closed, left, rfl, hhole, hclose, hpieces⟩
      have h₁ := hspelled hole _ _ hhole
      have h₂ := length_mark hclose
      have h₃ := ih _ _ hpieces
      rw [List.length_cons]
      omega

theorem quoted_literalAt (hspelled : ∀ hole, Shrinks (spelled hole)) :
    Quoted (LiteralAt spelled) where
  opens := by
    rintro parts text rest ⟨pieces, opened, hopen, -⟩
    exact next_of_mark (by decide) hopen
  shortens := by
    rintro parts text rest ⟨pieces, opened, hopen, hpieces, -⟩
    have h₁ := length_mark hopen
    have h₂ := shrinks_piecesAt hspelled pieces _ _ hpieces
    rw [List.length_cons] at h₂
    omega

/-- The loop takes all pieces, and the closing quote where there is one. -/
theorem parseParts_of_piecesAt (hexpr : CompleteHoles bound spelled expr)
    (hspelled : ∀ hole, Shrinks (spelled hole))
    {quoted : Bool} {opening : Str} {n : Nat} {pieces : List Piece} {parts : List LiteralPart}
    {gathered text left : Str}
    (h : PiecesAt spelled quoted pieces text (if quoted then '\'' :: left else []))
    (hleft : quoted = false → left = []) (hbound : text.length ≤ bound + 1)
    (hlen : text.length ≤ n) :
    parseParts expr quoted opening n parts gathered text =
      .ok (parts ++ collect gathered pieces, left) := by
  induction n generalizing pieces parts gathered text with
  | zero =>
    obtain rfl : text = [] := List.length_eq_zero_iff.mp (by omega)
    have hle := shrinks_piecesAt hspelled pieces _ _ h
    cases quoted with
    | true => simp at hle
    | false =>
      rw [hleft rfl]
      cases pieces with
      | nil => rfl
      | cons piece pieces =>
        cases piece with
        | char c =>
          obtain ⟨rest, ⟨-, hnil⟩ | ⟨-, hnil⟩, -⟩ := h <;> cases hnil
        | hole hole =>
          obtain ⟨opened, closed, rest, hnil, -⟩ := h
          cases hnil
  | succ n ih =>
    unfold parseParts
    rw [get_bind, peek_bind]
    cases pieces with
    | nil =>
      cases quoted with
      | true =>
        obtain rfl : text = '\'' :: left := h
        rfl
      | false =>
        obtain rfl : text = [] := h
        rw [hleft rfl]
        rfl
    | cons piece pieces =>
      cases piece with
      | char c =>
        obtain ⟨rest, ⟨⟨hbackslash, hbrace, hquote⟩, rfl⟩ | ⟨hescaped, rfl⟩, hpieces⟩ := h
        · rw [List.length_cons] at hbound hlen
          rw [List.head?_cons]
          dsimp only
          rw [if_neg fun hc => hquote hc.2 hc.1, if_neg hbackslash, if_neg hbrace, bump_bind,
            List.tail_cons]
          exact ih hpieces (by omega) (by omega)
        · rw [List.length_cons, List.length_cons] at hbound hlen
          rw [List.head?_cons]
          dsimp only
          rw [if_neg (by rintro ⟨hc, -⟩; cases hc), if_pos rfl, bump_bind, List.tail_cons,
            peek_bind, List.head?_cons]
          dsimp only
          rw [if_pos (show c ∈ ['\'', '\x7B', '\x7D', '\\'] from hescaped), bump_bind,
            List.tail_cons]
          exact ih hpieces (by omega) (by omega)
      | hole hole =>
        obtain ⟨opened, closed, rest, rfl, hhole, hclose, hpieces⟩ := h
        have h₁ := hspelled hole _ _ hhole
        have h₂ := length_mark hclose
        rw [List.length_cons] at hbound hlen
        rw [List.head?_cons]
        dsimp only
        rw [if_neg (by rintro ⟨hc, -⟩; cases hc), if_neg (by decide), if_pos rfl, bump_bind,
          List.tail_cons]
        have hnext := next_of_mark (by decide) hclose
        obtain ⟨behind, hbehind, hskip⟩ :=
          (hexpr hole opened closed (by omega) (.inr hnext) hhole).runs
        rw [bind_of_ok hbehind,
          bind_of_ok (expect_of_skip (hskip.trans (skip_of_mark (by decide) hclose)))]
        rw [ih hpieces (by omega) (by omega)]
        simp [collect]

theorem completeFor_parseLiteralParts (hexpr : CompleteHoles bound spelled expr)
    (hspelled : ∀ hole, Shrinks (spelled hole)) :
    CompleteFor (bound + 1) (LiteralAt spelled) (parseLiteralParts expr true) := by
  rintro parts text rest hbound ⟨pieces, opened, hopen, hpieces, rfl⟩ start hstart
  have hlen := length_mark hopen
  unfold parseLiteralParts
  apply runs_get
  rw [if_pos rfl]
  refine ⟨rest, ?_, rfl⟩
  rw [bind_of_ok (expect_of_skip (hstart.trans (skip_of_mark (by decide) hopen)))]
  exact parseParts_of_piecesAt hexpr hspelled hpieces Bool.noConfusion (by omega) le_rfl

end Holes

/-! ## Expressions -/

theorem length_exprAt {depth : Nat} {expr : Expr} (h : ExprAt depth expr text rest) :
    rest.length < text.length := by
  induction depth generalizing expr text rest with
  | zero => exact h.elim
  | succ depth ih =>
    have hshrinks (hole : Expr) : Shrinks (ExprAt depth hole) := fun _ _ hhole => (ih hhole).le
    have hquoted := quoted_literalAt hshrinks
    obtain ⟨alternatives⟩ := expr
    cases alternatives with
    | nil => exact h.elim
    | cons first others =>
      obtain ⟨middle, hfirst, hothers⟩ := h
      exact (shrinks_alternativesAt hquoted others _ _ hothers).trans_lt
        (length_primaryAt hquoted hfirst)

theorem shrinks_exprAt (depth : Nat) (expr : Expr) : Shrinks (ExprAt depth expr) :=
  fun _ _ h => (length_exprAt h).le

/-- What is spelled with literals to any depth, the parser takes at a level not below the text's
length. -/
theorem completeHoles_parseExpr (level depth : Nat) :
    CompleteHoles level (ExprAt depth) (parseExpr level) := by
  induction level generalizing depth with
  | zero =>
    intro hole text rest hbound hnext h
    have hlen := length_exprAt h
    omega
  | succ level ih =>
    intro hole text rest hbound hnext h
    cases depth with
    | zero => exact h.elim
    | succ depth =>
      have hquoted : Quoted (LiteralAt (ExprAt depth)) := quoted_literalAt (shrinks_exprAt depth)
      have hliteral := completeFor_parseLiteralParts (ih depth) (shrinks_exprAt depth)
      have hends : Ends rest := hnext.imp_right .inr
      have hlast : next rest ≠ some '|' := by
        rcases hnext with hnext | hnext <;> rw [hnext] <;> decide
      obtain ⟨alternatives⟩ := hole
      cases alternatives with
      | nil => exact h.elim
      | cons first others =>
        obtain ⟨middle, hfirst, hothers⟩ := h
        have hlen := length_primaryAt hquoted hfirst
        unfold parseExpr
        refine (reads_parsePrimary hliteral hquoted hfirst (ends_of_alternativesAt hothers hends)
          hbound).bind ?_
        refine reads_loop (fun n hn => ?_) (reads_pure _ _)
        exact reads_parseAlternatives hliteral hquoted hothers hends hlast (by omega) hn

/-- A text that spells a tree is accepted. -/
theorem parse_complete {source : Str} {expr : Expr} (h : Spells expr source) :
    parse source = .ok expr := by
  obtain ⟨depth, rest, hexpr, hblank⟩ := h
  have hskip : skip isWhitespace rest = [] := hblank.skip_eq
  have hnext : next rest = none := by
    unfold next
    rw [hskip]
    rfl
  obtain ⟨left, hleft, hbehind⟩ :=
    (completeHoles_parseExpr _ depth expr source rest le_rfl (.inl hnext) hexpr).runs
  unfold parse
  rw [hleft]
  dsimp only
  rw [hbehind, hskip]

theorem parseTemplate_complete {source : Str} {parts : List LiteralPart}
    (h : SpellsTemplate parts source) : parseTemplate source = .ok parts := by
  obtain ⟨depth, pieces, hpieces, rfl⟩ := h
  have hparts : parseLiteralParts (parseExpr source.length) false source =
    .ok (collect [] pieces, []) :=
    parseParts_of_piecesAt (completeHoles_parseExpr source.length depth)
      (shrinks_exprAt depth) hpieces (fun _ => rfl) (Nat.le_succ _) le_rfl
  unfold parseTemplate
  rw [hparts]
  rfl

end ParadoxCode.Rules.TypeExpr
