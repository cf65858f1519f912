import ParadoxCode.Rules.TypeGrammar

/-!
# What the parser of type expressions accepts

Whatever the parser takes from a text, the grammar spells there with the same tree.
-/

namespace ParadoxCode.Rules.TypeExpr

open Scanning

/-! ## Tokens -/

variable {text : Str}

theorem Token.of_blank {token other rest : Str} (h : Token token other rest)
    (hblank : Blank isWhitespace text other) : Token token text rest :=
  hblank.trans h

theorem Name.of_blank {name text other rest : Str} (h : Name name other rest)
    (hblank : Blank isWhitespace text other) : Name name text rest :=
  ⟨h.1, h.2.1.of_blank hblank, h.2.2⟩

theorem mark_of_skip {c : Char} {rest : Str} (h : skip isWhitespace text = c :: rest) :
    Mark c text rest := by
  have hblank : Blank isWhitespace text (skip isWhitespace text) := blank_skip text
  rw [h] at hblank
  exact hblank

theorem expect_apply (c : Char) (text : Str) :
    expect c text =
      match skip isWhitespace text with
      | [] => .error ⟨[], .expected c none⟩
      | found :: rest => if found = c then .ok ((), rest) else
          .error ⟨found :: rest, .expected c (some found)⟩ := by
  unfold expect
  rw [skipWhitespace, skipSpace_bind, peek_bind]
  cases skip isWhitespace text with
  | nil => rfl
  | cons found rest =>
    simp only [List.head?_cons]
    split_ifs <;> rfl

variable {left : Str}

theorem expect_sound {c : Char} (h : expect c text = .ok ((), left)) : Mark c text left := by
  rw [expect_apply] at h
  cases hskip : skip isWhitespace text with
  | nil =>
    rw [hskip] at h
    cases h
  | cons found rest =>
    rw [hskip] at h
    dsimp only at h
    split_ifs at h with hfound
    obtain ⟨-, rfl⟩ := Prod.mk.inj (Except.ok.inj h)
    exact mark_of_skip (hfound ▸ hskip)

theorem readIdent_apply (text : Str) :
    readIdent text =
      match skip isWhitespace text with
      | [] => .error ⟨[], .identifier none⟩
      | first :: rest =>
        if isIdentStart first then
          .ok (first :: rest.takeWhile isIdentChar, rest.dropWhile isIdentChar)
        else .error ⟨first :: rest, .identifier (some first)⟩ := by
  unfold readIdent
  rw [skipWhitespace, skipSpace_bind, peek_bind]
  cases skip isWhitespace text with
  | nil => rfl
  | cons first rest =>
    simp only [List.head?_cons]
    split_ifs <;> rfl

theorem head_dropWhile {p : Char → Bool} (text : Str) : ∀ c ∈ (text.dropWhile p).head?,
    p c = false :=
  @head_skip p text

theorem readIdent_sound {name : Str} (h : readIdent text = .ok (name, left)) :
    Name name text left := by
  rw [readIdent_apply] at h
  cases hskip : skip isWhitespace text with
  | nil =>
    rw [hskip] at h
    cases h
  | cons first rest =>
    rw [hskip] at h
    dsimp only at h
    split_ifs at h with hfirst
    obtain ⟨rfl, rfl⟩ := Prod.mk.inj (Except.ok.inj h)
    refine ⟨⟨first, _, rfl, hfirst, fun c hc => List.mem_takeWhile_imp hc⟩, ?_, head_dropWhile rest⟩
    have hblank : Blank isWhitespace text (skip isWhitespace text) := blank_skip text
    rw [hskip] at hblank
    unfold Token
    rwa [List.cons_append, List.takeWhile_append_dropWhile]

/-- Blank characters may follow. -/
def Loosely (spelling : Spelling) : Spelling := fun text left =>
  ∃ rest, spelling text rest ∧ Blank isWhitespace rest left

/-- Blank characters may stand in front; where nothing is spelled, they are left. -/
def Leads (spelling : Spelling) : Prop :=
  ∀ text other rest, Blank isWhitespace text other → spelling other rest →
    Loosely spelling text rest

theorem leads_eq : Leads Eq := by
  rintro text other rest hblank rfl
  exact ⟨text, rfl, hblank⟩

theorem Leads.loosely {spelling : Spelling} (h : Leads spelling) {other : Str}
    (hblank : Blank isWhitespace text other) (hspelled : Loosely spelling other left) :
    Loosely spelling text left := by
  obtain ⟨rest, hrest, hleft⟩ := hspelled
  obtain ⟨behind, hbehind, hblank'⟩ := h text other rest hblank hrest
  exact ⟨behind, hbehind, hblank'.trans hleft⟩

/-! ## Paths -/

theorem leads_segmentsAt (segments : List Segment) : Leads (SegmentsAt segments) := by
  cases segments with
  | nil => exact leads_eq
  | cons segment segments =>
    rintro text other rest hblank ⟨dot, middle, hmark, hrest⟩
    exact ⟨rest, ⟨dot, middle, hmark.of_blank hblank, hrest⟩, Blank.refl rest⟩

theorem parseParam_sound {param : Param} (h : parseParam text = .ok (param, left)) :
    ∃ rest, ParamAt param text rest ∧ Blank isWhitespace rest left ∧ left.head? ≠ some '.' ∧
      skip isWhitespace left = left := by
  unfold parseParam at h
  rw [skipWhitespace, skipSpace_bind, peek_bind] at h
  split_ifs at h with hdollar
  · cases h
  · rw [ne_eq, not_not] at hdollar
    obtain ⟨rest, hskip⟩ := List.head?_eq_some_iff.mp hdollar
    rw [hskip, bump_bind, List.tail_cons] at h
    obtain ⟨name, middle, hname, h⟩ := bind_eq_ok.mp h
    rw [skipSpace_bind, peek_bind] at h
    split_ifs at h with hdot
    · cases h
    · obtain ⟨rfl, rfl⟩ := Prod.mk.inj (Except.ok.inj h)
      exact ⟨middle, ⟨rest, mark_of_skip hskip, readIdent_sound hname⟩, blank_skip middle, hdot,
        skip_skip middle⟩

theorem parseSegment_sound {segment : Segment} (h : parseSegment text = .ok (segment, left)) :
    ∃ rest, SegmentAt segment text rest ∧ Blank isWhitespace rest left ∧
      ((∃ param, segment = .param param) → left.head? ≠ some '.' ∧
        skip isWhitespace left = left) := by
  unfold parseSegment at h
  rw [skipWhitespace, skipSpace_bind, peek_bind] at h
  have hblank : Blank isWhitespace text (skip isWhitespace text) := blank_skip text
  split_ifs at h with hdollar
  · obtain ⟨param, hparam, rfl⟩ := map_eq_ok.mp h
    obtain ⟨rest, ⟨middle, hmark, hname⟩, hleft, hdot⟩ := parseParam_sound hparam
    exact ⟨rest, ⟨middle, hmark.of_blank hblank, hname⟩, hleft, fun _ => hdot⟩
  · obtain ⟨name, hname, rfl⟩ := map_eq_ok.mp h
    exact ⟨left, (readIdent_sound hname).of_blank hblank,
      Blank.refl left, by rintro ⟨param, hparam⟩; cases hparam⟩

theorem parseSegments_eq_nil {segments : List Segment} {n : Nat}
    (h : parseSegments n text = .ok (segments, left)) (hdot : text.head? ≠ some '.')
    (hskip : skip isWhitespace text = text) : segments = [] := by
  cases n with
  | zero => exact (Prod.mk.inj (Except.ok.inj h)).1.symm
  | succ n =>
    unfold parseSegments at h
    rw [skipWhitespace, skipSpace_bind, peek_bind, hskip, if_pos hdot] at h
    exact (Prod.mk.inj (Except.ok.inj h)).1.symm

theorem parseSegments_sound {n : Nat} {segments : List Segment}
    (h : parseSegments n text = .ok (segments, left)) :
    Loosely (SegmentsAt segments) text left := by
  induction n generalizing text segments with
  | zero =>
    obtain ⟨rfl, rfl⟩ := Prod.mk.inj (Except.ok.inj h)
    exact ⟨text, rfl, Blank.refl text⟩
  | succ n ih =>
    unfold parseSegments at h
    rw [skipWhitespace, skipSpace_bind, peek_bind] at h
    split_ifs at h with hdot
    · obtain ⟨rfl, rfl⟩ := Prod.mk.inj (Except.ok.inj h)
      exact ⟨text, rfl, blank_skip text⟩
    · rw [ne_eq, not_not] at hdot
      obtain ⟨rest, hskip⟩ := List.head?_eq_some_iff.mp hdot
      rw [hskip, bump_bind, List.tail_cons] at h
      obtain ⟨segment, middle, hsegment, h⟩ := bind_eq_ok.mp h
      obtain ⟨others, last, hothers, h⟩ := bind_eq_ok.mp h
      obtain ⟨rfl, rfl⟩ := Prod.mk.inj (Except.ok.inj h)
      obtain ⟨behind, hat, hmiddle, hparam⟩ := parseSegment_sound hsegment
      obtain ⟨final, hfinal, hlast⟩ := (leads_segmentsAt others).loosely hmiddle (ih hothers)
      refine ⟨final, ⟨rest, behind, mark_of_skip hskip, hat, hfinal, fun hlastParam => ?_⟩, hlast⟩
      exact parseSegments_eq_nil hothers (hparam hlastParam).1 (hparam hlastParam).2

theorem parseArgument_sound {argument : Argument} (h : parseArgument text = .ok (argument, left)) :
    Loosely (ArgumentAt argument) text left := by
  unfold parseArgument at h
  rw [skipWhitespace, skipSpace_bind, peek_bind] at h
  have hblank : Blank isWhitespace text (skip isWhitespace text) := blank_skip text
  split_ifs at h with hdollar
  · obtain ⟨param, middle, hparam, h⟩ := bind_eq_ok.mp h
    obtain ⟨rfl, rfl⟩ := Prod.mk.inj (Except.ok.inj h)
    obtain ⟨rest, ⟨named, hmark, hname⟩, hleft, -⟩ := parseParam_sound hparam
    exact ⟨rest, ⟨named, hmark.of_blank hblank, hname⟩, hleft⟩
  · obtain ⟨first, middle, hfirst, h⟩ := bind_eq_ok.mp h
    have hname := (readIdent_sound hfirst).of_blank hblank
    split_ifs at h with himpl
    · cases h
    · rw [get_bind] at h
      obtain ⟨others, behind, hothers, h⟩ := bind_eq_ok.mp h
      obtain ⟨rest, hrest, hbehind⟩ := parseSegments_sound hothers
      rw [skipSpace_bind, peek_bind] at h
      have hskip := hbehind.trans (blank_skip behind)
      split_ifs at h with hmarker
      · obtain ⟨marker, next, hmark, h⟩ := bind_eq_ok.mp h
        split_ifs at h with hstrip
        · obtain ⟨stripPrefix, last, hlast, h⟩ := bind_eq_ok.mp h
          obtain ⟨rfl, rfl⟩ := Prod.mk.inj (Except.ok.inj h)
          refine ⟨last, ⟨himpl, middle, rest, next, hname, hrest, ?_, readIdent_sound hlast⟩,
            Blank.refl last⟩
          exact hstrip ▸ (readIdent_sound hmark).of_blank hskip
        · cases h
      · obtain ⟨rfl, rfl⟩ := Prod.mk.inj (Except.ok.inj h)
        exact ⟨rest, ⟨himpl, middle, hname, hrest⟩, hskip⟩

/-! ## Ranges -/

theorem takeNumber_sound {number : Str} (hdigit : text.head?.any Char.isDigit = true)
    (h : takeNumber text = .ok (number, left)) :
    IsUnsigned number ∧ text = number ++ left ∧ NumberEnds number left := by
  have hwhole : ∀ c ∈ text.takeWhile Char.isDigit, c.isDigit = true :=
    fun c hc => List.mem_takeWhile_imp hc
  have hne : text.takeWhile Char.isDigit ≠ [] := by
    cases text with
    | nil => cases hdigit
    | cons c text =>
      rw [List.takeWhile_cons_of_pos (by simpa using hdigit)]
      exact List.cons_ne_nil _ _
  have hsplit : text = text.takeWhile Char.isDigit ++ text.dropWhile Char.isDigit :=
    List.takeWhile_append_dropWhile.symm
  have hhead := head_dropWhile (p := Char.isDigit) text
  unfold takeNumber at h
  split at h
  · rename_i next rest hdrop
    rw [hdrop] at hsplit
    split_ifs at h with hnext
    · obtain ⟨rfl, rfl⟩ := Prod.mk.inj (Except.ok.inj h)
      refine ⟨.fraction _ _ hne hwhole ?_ fun c hc => List.mem_takeWhile_imp hc, ?_,
        head_dropWhile _, .inl (by simp)⟩
      · rw [List.takeWhile_cons_of_pos hnext]
        exact List.cons_ne_nil _ _
      · rw [List.append_assoc, List.cons_append, List.takeWhile_append_dropWhile]
        exact hsplit
    · obtain ⟨rfl, rfl⟩ := Prod.mk.inj (Except.ok.inj h)
      refine ⟨.whole _ hne hwhole, hsplit, hdrop ▸ hhead, .inr fun c hc _ => ?_⟩
      obtain rfl := Option.some.inj hc
      simpa using hnext
  · rename_i hdrop
    obtain ⟨rfl, rfl⟩ := Prod.mk.inj (Except.ok.inj h)
    refine ⟨.whole _ hne hwhole, hsplit, hhead, .inr fun c hc hdot => ?_⟩
    obtain ⟨rest, hrest⟩ := List.head?_eq_some_iff.mp hdot
    cases rest with
    | nil =>
      rw [hrest] at hc
      cases hc
    | cons next rest => exact absurd hrest (hdrop next rest)

theorem parseNumber_sound {bound : Option (Number × Str)}
    (h : parseNumber text = .ok (bound, left)) : Loosely (BoundAt (bound.map Prod.fst))
      text left := by
  unfold parseNumber at h
  rw [skipWhitespace, skipSpace_bind, get_bind, peek_bind] at h
  have hblank : Blank isWhitespace text (skip isWhitespace text) := blank_skip text
  split_ifs at h with hminus
  · obtain ⟨rest, hskip⟩ := List.head?_eq_some_iff.mp hminus
    rw [hskip, bump_bind, List.tail_cons, peek_bind] at h
    rw [hskip] at hblank
    split_ifs at h with hdigit
    · obtain ⟨number, behind, hnumber, h⟩ := bind_eq_ok.mp h
      obtain ⟨rfl, rfl⟩ := Prod.mk.inj (Except.ok.inj h)
      obtain ⟨hunsigned, rfl, hends⟩ := takeNumber_sound hdigit hnumber
      refine ⟨behind, ⟨.negative hunsigned, hblank, hends.1, hends.2.imp_left fun hmem => ?_⟩,
        Blank.refl behind⟩
      exact List.mem_cons_of_mem _ hmem
    · cases h
  · rw [peek_bind] at h
    split_ifs at h with hdigit
    · obtain ⟨number, behind, hnumber, h⟩ := bind_eq_ok.mp h
      obtain ⟨rfl, rfl⟩ := Prod.mk.inj (Except.ok.inj h)
      obtain ⟨hunsigned, htext, hends⟩ := takeNumber_sound hdigit hnumber
      rw [htext] at hblank
      exact ⟨behind, ⟨.unsigned hunsigned, hblank, hends⟩, Blank.refl behind⟩
    · obtain ⟨rfl, rfl⟩ := Prod.mk.inj (Except.ok.inj h)
      exact ⟨text, rfl, hblank⟩

theorem expectDots_sound (h : expectDots text = .ok ((), left)) : Token "..".toList text left := by
  unfold expectDots at h
  have hblank : Blank isWhitespace text (skip isWhitespace text) := blank_skip text
  split at h
  · rename_i rest hskip
    obtain ⟨-, rfl⟩ := Prod.mk.inj (Except.ok.inj h)
    rwa [hskip] at hblank
  · cases h

/-- The checks of `parse_range` say that the bounds fit. -/
theorem fits_iff_checks {kind : ScalarKind} (hranged : kind.ranged = true)
    (min max : Option (Number × Str)) :
    Range.Fits kind ⟨min.map Prod.fst, max.map Prod.fst⟩ ↔ brokenAt kind min max = none ∧
    exceeding min max = none := by
  have hbroken : brokenAt kind min max = none ↔
      (kind = .int → ∀ bound ∈ [min.map Prod.fst, max.map Prod.fst], ∀ number ∈ bound,
        (F64.parse number).isIntegral = true) := by
    have hnone : ∀ bounds : List (Option (Number × Str)),
        (bounds.find? (brokenBound kind)).bind (fun bound => bound.map Prod.snd) = none ↔
          ∀ bound ∈ bounds, brokenBound kind bound = false := by
      intro bounds
      rw [Option.bind_eq_none_iff]
      constructor
      · intro hall bound hbound
        by_contra hbad
        rw [Bool.not_eq_false] at hbad
        obtain ⟨found, hfound⟩ := Option.isSome_iff_exists.mp
          (List.find?_isSome.mpr ⟨bound, hbound, hbad⟩)
        -- what is broken is a bound
        cases found with
        | none => simpa [brokenBound] using List.find?_some hfound
        | some entry => cases hall _ hfound
      · intro hall bound hfound
        exact absurd (List.find?_some hfound)
          (by simp [hall bound (List.mem_of_find?_eq_some hfound)])
    unfold brokenAt
    rw [hnone]
    cases min <;> cases max <;> by_cases hkind : kind = .int <;> simp [brokenBound, hkind]
  have horder : exceeding min max = none ↔
      ∀ lower ∈ min.map Prod.fst, ∀ upper ∈ max.map Prod.fst,
        (F64.parse lower).exceeds (F64.parse upper) = false := by
    cases min <;> cases max <;> simp [exceeding]
  unfold Range.Fits
  rw [hbroken, horder, and_iff_right hranged]

theorem parseRange_sound {kind : ScalarKind} {range : Option Range}
    (h : parseRange kind text = .ok (range, left)) : Loosely (RangeAt kind range) text left := by
  unfold parseRange at h
  rw [skipWhitespace, skipSpace_bind, peek_bind] at h
  split_ifs at h with hopen hranged
  · obtain ⟨rfl, rfl⟩ := Prod.mk.inj (Except.ok.inj h)
    exact ⟨text, rfl, blank_skip text⟩
  · cases h
  · rw [ne_eq, not_not] at hopen
    obtain ⟨rest, hskip⟩ := List.head?_eq_some_iff.mp hopen
    rw [get_bind, hskip, bump_bind, List.tail_cons] at h
    obtain ⟨min, afterMin, hmin, h⟩ := bind_eq_ok.mp h
    obtain ⟨⟨⟩, afterDots, hdots, h⟩ := bind_eq_ok.mp h
    obtain ⟨max, afterMax, hmax, h⟩ := bind_eq_ok.mp h
    obtain ⟨⟨⟩, afterClose, hclose, h⟩ := bind_eq_ok.mp h
    obtain ⟨bounded, hmin, hminBlank⟩ := parseNumber_sound hmin
    obtain ⟨closed, hmax, hmaxBlank⟩ := parseNumber_sound hmax
    have hranged : kind.ranged = true := by simpa using hranged
    cases hbroken : brokenAt kind min max with
    | some offset =>
      rw [hbroken] at h
      cases h
    | none =>
      rw [hbroken] at h
      dsimp only at h
      cases horder : exceeding min max with
      | some bounds =>
        rw [horder] at h
        cases h
      | none =>
        rw [horder] at h
        obtain ⟨rfl, rfl⟩ := Prod.mk.inj (Except.ok.inj h)
        have hfits := (fits_iff_checks hranged min max).mpr ⟨hbroken, horder⟩
        exact ⟨_, ⟨hfits, rest, bounded, afterDots, closed, mark_of_skip hskip, hmin,
          (expectDots_sound hdots).of_blank hminBlank, hmax,
            (expect_sound hclose).of_blank hmaxBlank⟩, Blank.refl _⟩

/-! ## Queries -/

section Literals

variable {literal : Scanning.Parser Message (List LiteralPart)}
    {spelled : List LiteralPart → Spelling}

/-- What the parser of literals takes is spelled. -/
def SoundFor (spelled : List LiteralPart → Spelling)
    (literal : Scanning.Parser Message (List LiteralPart)) : Prop :=
  ∀ text parts left, literal text = .ok (parts, left) → spelled parts text left

/-- Blank characters may stand in front of a literal. -/
def OpensBlank (spelled : List LiteralPart → Spelling) : Prop :=
  ∀ parts text other rest, Blank isWhitespace text other → spelled parts other rest →
    spelled parts text rest

variable {keyword : Str}

theorem keyword_of_fromKeyword {kind : ScalarKind}
    (h : ScalarKind.fromKeyword keyword = some kind) : keyword = kind.keyword := by
  have hfound := List.find?_some h
  simp only [decide_eq_true_eq] at hfound
  exact hfound.symm

theorem filter_of_fromKeyword {kind : FilterKind} (h : FilterKind.fromKeyword keyword = some kind) :
    keyword = kind.keyword := by
  have hfound := List.find?_some h
  simp only [decide_eq_true_eq] at hfound
  exact hfound.symm

theorem shape_of_fromKeyword {shape : QueryShape}
    (h : QueryShape.fromKeyword keyword = some shape) : keyword = shape.keyword := by
  unfold QueryShape.fromKeyword at h
  split_ifs at h with hscalar hblock
  · exact Option.some.inj h ▸ hscalar
  · exact Option.some.inj h ▸ hblock

theorem valueKind_of_fromKeyword {kind : QueryValueKind}
    (h : QueryValueKind.fromKeyword keyword = some kind) : keyword = kind.keyword := by
  unfold QueryValueKind.fromKeyword at h
  split_ifs at h with hint hfloat hbool
  · exact Option.some.inj h ▸ hint
  · exact Option.some.inj h ▸ hfloat
  · exact Option.some.inj h ▸ hbool

theorem projection_of_fromKeyword {projection : QueryProjection}
    (h : QueryProjection.fromKeyword keyword = some projection) : keyword = projection.keyword := by
  unfold QueryProjection.fromKeyword at h
  split_ifs at h with hkeys hvalues
  · exact Option.some.inj h ▸ hkeys
  · exact Option.some.inj h ▸ hvalues

variable {text left : Str}

theorem parseQuerySelector_sound (hliteral : SoundFor spelled literal) (hopens : OpensBlank spelled)
    {selector : QuerySelector} (h : parseQuerySelector literal text = .ok (selector, left)) :
    Loosely (SelectorAt spelled selector) text left := by
  unfold parseQuerySelector at h
  rw [skipWhitespace, skipSpace_bind, get_bind, peek_bind] at h
  have hblank : Blank isWhitespace text (skip isWhitespace text) := blank_skip text
  split_ifs at h with hquote
  · obtain ⟨parts, behind, hparts, h⟩ := bind_eq_ok.mp h
    cases htexts : parts.mapM LiteralPart.constant with
    | none =>
      rw [htexts] at h
      cases h
    | some texts =>
      rw [htexts] at h
      obtain ⟨rfl, rfl⟩ := Prod.mk.inj (Except.ok.inj h)
      exact ⟨behind, .inr ⟨parts, texts, hopens _ _ _ _ hblank (hliteral _ _ _ hparts), htexts,
        rfl⟩, Blank.refl _⟩
  · obtain ⟨name, behind, hname, h⟩ := bind_eq_ok.mp h
    have hname := (readIdent_sound hname).of_blank hblank
    rw [skipSpace_bind, peek_bind] at h
    split_ifs at h with hsibling
    · obtain ⟨rest, hskip⟩ := List.head?_eq_some_iff.mp hsibling.2
      rw [hskip, bump_bind, List.tail_cons] at h
      obtain ⟨sibling, closed, hsib, h⟩ := bind_eq_ok.mp h
      obtain ⟨⟨⟩, last, hclose, h⟩ := bind_eq_ok.mp h
      obtain ⟨rfl, rfl⟩ := Prod.mk.inj (Except.ok.inj h)
      refine ⟨last, ⟨behind, rest, closed, ?_, mark_of_skip hskip, readIdent_sound hsib,
        expect_sound hclose⟩, Blank.refl last⟩
      exact hsibling.1 ▸ hname
    · obtain ⟨rfl, rfl⟩ := Prod.mk.inj (Except.ok.inj h)
      exact ⟨behind, .inl hname, blank_skip behind⟩

theorem parseValueKind_sound {kind : QueryValueKind}
    (h : parseValueKind text = .ok (kind, left)) : Name kind.keyword text left := by
  unfold parseValueKind at h
  rw [get_bind] at h
  obtain ⟨keyword, behind, hkeyword, h⟩ := bind_eq_ok.mp h
  cases hfound : QueryValueKind.fromKeyword keyword with
  | none =>
    rw [hfound] at h
    cases h
  | some found =>
    rw [hfound] at h
    obtain ⟨rfl, rfl⟩ := Prod.mk.inj (Except.ok.inj h)
    exact valueKind_of_fromKeyword hfound ▸ readIdent_sound hkeyword

theorem parseValueKinds_sound {n : Nat} {kinds : List QueryValueKind}
    (h : parseValueKinds n text = .ok (kinds, left)) : Loosely (ValueKindsAt kinds) text left := by
  induction n generalizing text kinds with
  | zero =>
    obtain ⟨rfl, rfl⟩ := Prod.mk.inj (Except.ok.inj h)
    exact ⟨text, rfl, Blank.refl text⟩
  | succ n ih =>
    unfold parseValueKinds at h
    rw [skipWhitespace, skipSpace_bind, peek_bind] at h
    split_ifs at h with hbar
    · obtain ⟨rfl, rfl⟩ := Prod.mk.inj (Except.ok.inj h)
      exact ⟨text, rfl, blank_skip text⟩
    · rw [ne_eq, not_not] at hbar
      obtain ⟨rest, hskip⟩ := List.head?_eq_some_iff.mp hbar
      rw [hskip, bump_bind, List.tail_cons] at h
      obtain ⟨kind, middle, hkind, h⟩ := bind_eq_ok.mp h
      obtain ⟨others, last, hothers, h⟩ := bind_eq_ok.mp h
      obtain ⟨rfl, rfl⟩ := Prod.mk.inj (Except.ok.inj h)
      obtain ⟨final, hfinal, hlast⟩ := ih hothers
      exact ⟨final, ⟨rest, middle, mark_of_skip hskip, parseValueKind_sound hkind, hfinal⟩, hlast⟩

/-- A filter behind its `=` adds what it spells. -/
theorem parseFilter_sound (hliteral : SoundFor spelled literal) (hopens : OpensBlank spelled)
    {offset name : Str} {query after : FieldQuery}
    (h : parseFilter literal offset name query text = .ok (after, left)) :
    ∃ filter : Filter, filter.name = name ∧ after = filter.apply query ∧
      Loosely (FilterValueAt spelled filter) text left := by
  unfold parseFilter at h
  cases hkind : FilterKind.fromKeyword name with
  | none =>
    rw [hkind] at h
    cases h
  | some kind =>
    obtain rfl := filter_of_fromKeyword hkind
    rw [hkind] at h
    cases kind with
    | key =>
      obtain ⟨selector, behind, hselector, h⟩ := bind_eq_ok.mp h
      obtain ⟨rfl, rfl⟩ := Prod.mk.inj (Except.ok.inj h)
      exact ⟨.key selector, rfl, rfl, parseQuerySelector_sound hliteral hopens hselector⟩
    | scopeAccepts =>
      obtain ⟨scope, behind, hname, h⟩ := bind_eq_ok.mp h
      obtain ⟨rfl, rfl⟩ := Prod.mk.inj (Except.ok.inj h)
      exact ⟨.scopeAccepts scope, rfl, rfl, behind, readIdent_sound hname, Blank.refl behind⟩
    | shape =>
      obtain ⟨keyword, behind, hkeyword, h⟩ := bind_eq_ok.mp h
      cases hfound : QueryShape.fromKeyword keyword with
      | none =>
        rw [hfound] at h
        cases h
      | some shape =>
        rw [hfound] at h
        obtain ⟨rfl, rfl⟩ := Prod.mk.inj (Except.ok.inj h)
        obtain rfl := shape_of_fromKeyword hfound
        exact ⟨.shape shape, rfl, rfl, behind, readIdent_sound hkeyword, Blank.refl behind⟩
    | valueKindAny =>
      obtain ⟨⟨⟩, opened, hopen, h⟩ := bind_eq_ok.mp h
      obtain ⟨kind, middle, hkind, h⟩ := bind_eq_ok.mp h
      rw [get_bind] at h
      obtain ⟨kinds, behind, hothers, h⟩ := bind_eq_ok.mp h
      obtain ⟨⟨⟩, last, hclose, h⟩ := bind_eq_ok.mp h
      obtain ⟨rfl, rfl⟩ := Prod.mk.inj (Except.ok.inj h)
      obtain ⟨closed, hclosed, hbehind⟩ := parseValueKinds_sound hothers
      exact ⟨.valueKindAny kind kinds, rfl, rfl, last, ⟨opened, middle, closed, expect_sound hopen,
        parseValueKind_sound hkind, hclosed, (expect_sound hclose).of_blank hbehind⟩,
          Blank.refl last⟩
    | callArgs =>
      obtain ⟨arguments, behind, hname, h⟩ := bind_eq_ok.mp h
      split_ifs at h with hnone
      · cases h
      · rw [ne_eq, not_not] at hnone
        obtain ⟨rfl, rfl⟩ := Prod.mk.inj (Except.ok.inj h)
        subst hnone
        exact ⟨.callArgs, rfl, rfl, behind, readIdent_sound hname, Blank.refl behind⟩
    | capability =>
      obtain ⟨capability, behind, hname, h⟩ := bind_eq_ok.mp h
      obtain ⟨rfl, rfl⟩ := Prod.mk.inj (Except.ok.inj h)
      exact ⟨.capability capability, rfl, rfl, behind, readIdent_sound hname, Blank.refl behind⟩

theorem leads_filtersAt (filters : List Filter) : Leads (FiltersAt spelled filters) := by
  cases filters with
  | nil => exact leads_eq
  | cons filter filters =>
    rintro text other rest hblank ⟨comma, keyword, value, middle, hmark, hrest⟩
    exact ⟨rest, ⟨comma, keyword, value, middle, hmark.of_blank hblank, hrest⟩, Blank.refl rest⟩

/-- The filters behind those that have been seen: none is repeated. -/
theorem parseFilters_sound (hliteral : SoundFor spelled literal)
    (hopens : OpensBlank spelled) {n : Nat} {seen : List Str} {query after : FieldQuery}
    (h : parseFilters literal n seen query text = .ok (after, left)) :
    ∃ filters : List Filter, after = filters.foldl Filter.apply query ∧
      (filters.map Filter.name).Nodup ∧
      (∀ filter ∈ filters, filter.name ∉ seen) ∧ Loosely (FiltersAt spelled filters) text left := by
  induction n generalizing text seen query with
  | zero =>
    obtain ⟨rfl, rfl⟩ := Prod.mk.inj (Except.ok.inj h)
    exact ⟨[], rfl, List.nodup_nil, fun _ hf => absurd hf List.not_mem_nil, text, rfl,
      Blank.refl text⟩
  | succ n ih =>
    unfold parseFilters at h
    rw [skipWhitespace, skipSpace_bind, peek_bind] at h
    split_ifs at h with hcomma
    · obtain ⟨rfl, rfl⟩ := Prod.mk.inj (Except.ok.inj h)
      exact ⟨[], rfl, List.nodup_nil, fun _ hf => absurd hf List.not_mem_nil, text, rfl,
        blank_skip text⟩
    · rw [ne_eq, not_not] at hcomma
      obtain ⟨rest, hskip⟩ := List.head?_eq_some_iff.mp hcomma
      rw [hskip, bump_bind, List.tail_cons, skipSpace_bind, get_bind] at h
      obtain ⟨name, keyword, hname, h⟩ := bind_eq_ok.mp h
      split_ifs at h with hseen
      · cases h
      · obtain ⟨⟨⟩, value, hequals, h⟩ := bind_eq_ok.mp h
        obtain ⟨next, middle, hfilter, h⟩ := bind_eq_ok.mp h
        obtain ⟨filter, rfl, rfl, behind, hvalue, hbehind⟩ :=
          parseFilter_sound hliteral hopens hfilter
        obtain ⟨filters, rfl, hnodup, hnew, hfilters⟩ := ih h
        obtain ⟨final, hfinal, hleft⟩ := (leads_filtersAt filters).loosely hbehind hfilters
        refine ⟨filter :: filters, rfl, ?_, ?_, final,
          ⟨rest, keyword, value, behind, mark_of_skip hskip,
          (readIdent_sound hname).of_blank (blank_skip rest), expect_sound hequals, hvalue, hfinal⟩,
            hleft⟩
        · rw [List.map_cons, List.nodup_cons]
          refine ⟨fun hmem => ?_, hnodup⟩
          obtain ⟨other, hother, heq⟩ := List.mem_map.mp hmem
          exact hnew other hother (heq ▸ List.mem_cons_self)
        · intro other hother
          rcases List.mem_cons.mp hother with rfl | hother
          · exact hseen
          · exact fun hmem => hnew other hother (List.mem_cons_of_mem _ hmem)

theorem projection_apply (query : FieldQuery) (filter : Filter) :
    (filter.apply query).projection = query.projection := by
  cases filter <;> rfl

theorem projection_foldl (filters : List Filter) (query : FieldQuery) :
    (filters.foldl Filter.apply query).projection = query.projection := by
  induction filters generalizing query with
  | nil => rfl
  | cons filter filters ih => rw [List.foldl_cons, ih, projection_apply]

theorem parseQuery_sound (hliteral : SoundFor spelled literal) (hopens : OpensBlank spelled)
    {projection : QueryProjection} {query : FieldQuery}
    (h : parseQuery literal projection text = .ok (query, left)) :
    query.projection = projection ∧ QueryAt spelled query text left := by
  unfold parseQuery at h
  obtain ⟨⟨⟩, opened, hopen, h⟩ := bind_eq_ok.mp h
  obtain ⟨schema, named, hschema, h⟩ := bind_eq_ok.mp h
  rw [get_bind] at h
  obtain ⟨found, behind, hfilters, h⟩ := bind_eq_ok.mp h
  obtain ⟨⟨⟩, last, hclose, h⟩ := bind_eq_ok.mp h
  obtain ⟨filters, rfl, hnodup, -, closed, hclosed, hbehind⟩ :=
    parseFilters_sound hliteral hopens hfilters
  split_ifs at h with hselected hblock hcall
  · cases h
  · cases h
  · cases h
  · obtain ⟨rfl, rfl⟩ := Prod.mk.inj (Except.ok.inj h)
    have hprojection :
      (filters.foldl Filter.apply (FieldQuery.start projection schema)).projection = projection :=
      projection_foldl filters _
    refine ⟨hprojection, ⟨fun hvalues hnone => ?_, fun hvalues hshape => ?_, fun harguments => ?_⟩,
      schema, filters, opened, named, closed, expect_sound hopen, readIdent_sound hschema, hclosed,
      (expect_sound hclose).of_blank hbehind, hnodup, ?_⟩
    · exact hselected ⟨hprojection ▸ hvalues, hnone⟩
    · exact hblock ⟨hprojection ▸ hvalues, hshape⟩
    · by_contra hshape
      exact hcall ⟨harguments, hshape⟩
    · exact congrArg (fun p => filters.foldl Filter.apply (FieldQuery.start p schema))
        hprojection.symm

/-! ## Alternatives -/

theorem constructor_cases {constructor : Argument → Primary}
    (h : constructor? keyword = some constructor) (argument : Argument) :
    PrimaryAt spelled (constructor argument) = ConstructorAt keyword argument := by
  unfold constructor? at h
  split_ifs at h with href hdef henum hscope <;> obtain rfl := Option.some.inj h
  · exact href ▸ rfl
  · exact hdef ▸ rfl
  · exact henum ▸ rfl
  · exact hscope ▸ rfl

theorem parseKeyword_sound (hliteral : SoundFor spelled literal)
    (hopens : OpensBlank spelled) {start : Str}
    {primary : Primary} {named : Str} (hname : Name keyword text named)
    (h : parseKeyword literal start keyword named = .ok (primary, left)) :
    Loosely (PrimaryAt spelled primary) text left := by
  unfold parseKeyword at h
  cases hkind : ScalarKind.fromKeyword keyword with
  | some kind =>
    rw [hkind] at h
    obtain ⟨range, hrange, rfl⟩ := map_eq_ok.mp h
    obtain ⟨rest, hrest, hleft⟩ := parseRange_sound hrange
    exact ⟨rest, ⟨named, keyword_of_fromKeyword hkind ▸ hname, hrest⟩, hleft⟩
  | none =>
    rw [hkind] at h
    dsimp only at h
    cases hprojection : QueryProjection.fromKeyword keyword with
    | some projection =>
      rw [hprojection] at h
      obtain ⟨query, hquery, rfl⟩ := map_eq_ok.mp h
      obtain ⟨rfl, hspelled⟩ := parseQuery_sound hliteral hopens hquery
      exact ⟨left, ⟨named, projection_of_fromKeyword hprojection ▸ hname, hspelled⟩,
        Blank.refl left⟩
    | none =>
      rw [hprojection] at h
      dsimp only at h
      by_cases hpath : keyword = "path".toList
      · rw [if_pos hpath, skipWhitespace, skipSpace_bind, peek_bind] at h
        subst hpath
        split_ifs at h with hopen
        · obtain ⟨rest, hskip⟩ := List.head?_eq_some_iff.mp hopen
          rw [hskip, bump_bind, List.tail_cons] at h
          obtain ⟨category, closed, hcategory, h⟩ := bind_eq_ok.mp h
          obtain ⟨⟨⟩, last, hclose, h⟩ := bind_eq_ok.mp h
          obtain ⟨rfl, rfl⟩ := Prod.mk.inj (Except.ok.inj h)
          exact ⟨_, ⟨named, rest, closed, hname, mark_of_skip hskip, readIdent_sound hcategory,
            expect_sound hclose⟩, Blank.refl _⟩
        · obtain ⟨rfl, rfl⟩ := Prod.mk.inj (Except.ok.inj h)
          exact ⟨named, hname, blank_skip named⟩
      · rw [if_neg hpath] at h
        cases hconstructor : constructor? keyword with
        | some constructor =>
          rw [hconstructor] at h
          obtain ⟨⟨⟩, opened, hopen, h⟩ := bind_eq_ok.mp h
          obtain ⟨argument, behind, hargument, h⟩ := bind_eq_ok.mp h
          obtain ⟨⟨⟩, last, hclose, h⟩ := bind_eq_ok.mp h
          obtain ⟨rfl, rfl⟩ := Prod.mk.inj (Except.ok.inj h)
          obtain ⟨closed, hclosed, hbehind⟩ := parseArgument_sound hargument
          refine ⟨last, ?_, Blank.refl last⟩
          rw [constructor_cases hconstructor]
          exact ⟨named, opened, closed, hname, expect_sound hopen, hclosed,
            (expect_sound hclose).of_blank hbehind⟩
        | none =>
          rw [hconstructor] at h
          dsimp only at h
          split_ifs at h <;> cases h

theorem parsePrimary_sound (hliteral : SoundFor spelled literal) (hopens : OpensBlank spelled)
    {primary : Primary} (h : parsePrimary literal text = .ok (primary, left)) :
    Loosely (PrimaryAt spelled primary) text left := by
  unfold parsePrimary at h
  rw [skipWhitespace, skipSpace_bind, get_bind, peek_bind] at h
  have hblank : Blank isWhitespace text (skip isWhitespace text) := blank_skip text
  cases hfirst : (skip isWhitespace text).head? with
  | none =>
    rw [hfirst] at h
    cases h
  | some first =>
    rw [hfirst] at h
    dsimp only at h
    split_ifs at h with hdollar hquote hident
    · obtain ⟨param, hparam, rfl⟩ := map_eq_ok.mp h
      obtain ⟨rest, ⟨named, hmark, hname⟩, hleft, -⟩ := parseParam_sound hparam
      exact ⟨rest, ⟨named, hmark.of_blank hblank, hname⟩, hleft⟩
    · obtain ⟨parts, hparts, rfl⟩ := map_eq_ok.mp h
      exact ⟨left, hopens _ _ _ _ hblank (hliteral _ _ _ hparts), Blank.refl left⟩
    · obtain ⟨keyword, named, hname, h⟩ := bind_eq_ok.mp h
      exact parseKeyword_sound hliteral hopens ((readIdent_sound hname).of_blank hblank) h
    · cases h

theorem leads_alternativesAt (primaries : List Primary) :
    Leads (AlternativesAt spelled primaries) := by
  cases primaries with
  | nil => exact leads_eq
  | cons primary primaries =>
    rintro text other rest hblank ⟨bar, middle, hmark, hrest⟩
    exact ⟨rest, ⟨bar, middle, hmark.of_blank hblank, hrest⟩, Blank.refl rest⟩

theorem parseAlternatives_sound (hliteral : SoundFor spelled literal)
    (hopens : OpensBlank spelled) {n : Nat}
    {primaries : List Primary} (h : parseAlternatives literal n text = .ok (primaries, left)) :
    Loosely (AlternativesAt spelled primaries) text left := by
  induction n generalizing text primaries with
  | zero =>
    obtain ⟨rfl, rfl⟩ := Prod.mk.inj (Except.ok.inj h)
    exact ⟨text, rfl, Blank.refl text⟩
  | succ n ih =>
    unfold parseAlternatives at h
    rw [skipWhitespace, skipSpace_bind, peek_bind] at h
    split_ifs at h with hbar
    · obtain ⟨rfl, rfl⟩ := Prod.mk.inj (Except.ok.inj h)
      exact ⟨text, rfl, blank_skip text⟩
    · rw [ne_eq, not_not] at hbar
      obtain ⟨rest, hskip⟩ := List.head?_eq_some_iff.mp hbar
      rw [hskip, bump_bind, List.tail_cons] at h
      obtain ⟨primary, middle, hprimary, h⟩ := bind_eq_ok.mp h
      obtain ⟨others, last, hothers, h⟩ := bind_eq_ok.mp h
      obtain ⟨rfl, rfl⟩ := Prod.mk.inj (Except.ok.inj h)
      obtain ⟨behind, hbehind, hmiddle⟩ := parsePrimary_sound hliteral hopens hprimary
      obtain ⟨final, hfinal, hlast⟩ := (leads_alternativesAt others).loosely hmiddle (ih hothers)
      exact ⟨final, ⟨rest, behind, mark_of_skip hskip, hbehind, hfinal⟩, hlast⟩

end Literals

/-! ## Literals -/

section Holes

variable {expr : Scanning.Parser Message Expr} {spelled : Expr → Spelling}

/-- The loop takes pieces, up to the closing quote where there is one. -/
theorem parseParts_sound (hexpr : ∀ text hole left, expr text = .ok (hole, left) →
    Loosely (spelled hole) text left)
    {quoted : Bool} {opening : Str} {n : Nat} {parts result : List LiteralPart}
    {gathered text left : Str}
    (h : parseParts expr quoted opening n parts gathered text = .ok (result, left)) :
    ∃ pieces, result = parts ++ collect gathered pieces ∧
      PiecesAt spelled quoted pieces text (if quoted then '\'' :: left else left) := by
  induction n generalizing parts gathered text with
  | zero =>
    unfold parseParts at h
    cases quoted with
    | true => cases h
    | false =>
      obtain ⟨rfl, rfl⟩ := Prod.mk.inj (Except.ok.inj h)
      exact ⟨[], rfl, rfl⟩
  | succ n ih =>
    unfold parseParts at h
    rw [get_bind, peek_bind] at h
    cases text with
    | nil =>
      cases quoted with
      | true => cases h
      | false =>
        obtain ⟨rfl, rfl⟩ := Prod.mk.inj (Except.ok.inj h)
        exact ⟨[], rfl, rfl⟩
    | cons next rest =>
      rw [List.head?_cons] at h
      dsimp only at h
      split_ifs at h with hquote hbackslash hbrace
      · obtain ⟨rfl, rfl⟩ := hquote
        rw [bump_bind, List.tail_cons] at h
        obtain ⟨rfl, rfl⟩ := Prod.mk.inj (Except.ok.inj h)
        exact ⟨[], rfl, rfl⟩
      · subst hbackslash
        rw [bump_bind, List.tail_cons, peek_bind] at h
        cases rest with
        | nil => cases h
        | cons escaped rest =>
          rw [List.head?_cons] at h
          dsimp only at h
          split_ifs at h with hescaped
          · rw [bump_bind, List.tail_cons] at h
            obtain ⟨pieces, hresult, hpieces⟩ := ih h
            exact ⟨.char escaped :: pieces, hresult, rest, .inr ⟨hescaped, rfl⟩, hpieces⟩
          · cases h
      · subst hbrace
        rw [bump_bind, List.tail_cons] at h
        obtain ⟨hole, behind, hhole, h⟩ := bind_eq_ok.mp h
        obtain ⟨⟨⟩, last, hclose, h⟩ := bind_eq_ok.mp h
        obtain ⟨pieces, hresult, hpieces⟩ := ih h
        obtain ⟨closed, hclosed, hblank⟩ := hexpr _ _ _ hhole
        refine ⟨.hole hole :: pieces, ?_, rest, closed, last, rfl, hclosed,
          (expect_sound hclose).of_blank hblank, hpieces⟩
        rw [hresult]
        simp [collect]
      · rw [bump_bind, List.tail_cons] at h
        obtain ⟨pieces, hresult, hpieces⟩ := ih h
        refine ⟨.char next :: pieces, hresult, rest,
          .inl ⟨⟨hbackslash, hbrace, fun hq hnext => ?_⟩, rfl⟩, hpieces⟩
        exact hquote ⟨hnext, hq⟩

theorem parseLiteralParts_sound
    (hexpr : ∀ text hole left, expr text = .ok (hole, left) → Loosely (spelled hole) text left) :
    SoundFor (LiteralAt spelled) (parseLiteralParts expr true) := by
  intro text parts left h
  unfold parseLiteralParts at h
  rw [get_bind, if_pos rfl] at h
  obtain ⟨⟨⟩, opened, hopen, h⟩ := bind_eq_ok.mp h
  dsimp only at h
  rw [get_bind] at h
  obtain ⟨pieces, hparts, hpieces⟩ := parseParts_sound hexpr h
  exact ⟨pieces, opened, expect_sound hopen, hpieces, hparts⟩

theorem opensBlank_literalAt : OpensBlank (LiteralAt spelled) := by
  rintro parts text other rest hblank ⟨pieces, opened, hopen, hpieces, hparts⟩
  exact ⟨pieces, opened, hopen.of_blank hblank, hpieces, hparts⟩

end Holes

/-- What the parser takes at a level is spelled with literals to that depth. -/
theorem parseExpr_sound {level : Nat} {expr : Expr} (h : parseExpr level text = .ok (expr, left)) :
    Loosely (ExprAt level expr) text left := by
  induction level generalizing expr text left with
  | zero => cases h
  | succ level ih =>
    have hliteral := parseLiteralParts_sound fun _ _ _ hhole => ih hhole
    have hopens : OpensBlank (LiteralAt (ExprAt level)) := opensBlank_literalAt
    unfold parseExpr at h
    obtain ⟨first, middle, hfirst, h⟩ := bind_eq_ok.mp h
    rw [get_bind] at h
    obtain ⟨others, last, hothers, h⟩ := bind_eq_ok.mp h
    obtain ⟨rfl, rfl⟩ := Prod.mk.inj (Except.ok.inj h)
    obtain ⟨behind, hbehind, hmiddle⟩ := parsePrimary_sound hliteral hopens hfirst
    obtain ⟨final, hfinal, hlast⟩ :=
      (leads_alternativesAt others).loosely hmiddle
        (parseAlternatives_sound hliteral hopens hothers)
    exact ⟨final, ⟨behind, hbehind, hfinal⟩, hlast⟩

/-! ## Entry points -/

/-- An accepted text spells the tree. -/
theorem parse_sound {source : Str} {expr : Expr} (h : parse source = .ok expr) :
    Spells expr source := by
  unfold parse at h
  cases hexpr : parseExpr source.length source with
  | error failure =>
    rw [hexpr] at h
    cases h
  | ok result =>
    rw [hexpr] at h
    dsimp only at h
    cases hskip : skip isWhitespace result.2 with
    | cons found rest =>
      rw [hskip] at h
      cases h
    | nil =>
      rw [hskip] at h
      obtain rfl := Except.ok.inj h
      obtain ⟨rest, hrest, hblank⟩ := parseExpr_sound hexpr
      exact ⟨source.length, rest, hrest, hblank.trans (blank_of_skip_eq_nil hskip)⟩

end ParadoxCode.Rules.TypeExpr
