import ParadoxCode.Format.Edits

/-!
# Edits realise the canonical text

The edits of the formatter lead from the source to the formatted text, piece by piece: the gap
before each token and the token itself. Nothing about the printer is used, only the checks behind
it.
-/

namespace ParadoxCode.Format

open ParadoxCode.Parser

/-- `Rewrites source edits stop text`: with the edits, the source up to `stop` becomes `text`. -/
inductive Rewrites (source : Str) : List TextEdit → Nat → Str → Prop
  | nil : Rewrites source [] 0 []
  | keep {edits : List TextEdit} {start stop : Nat} {text kept : Str}
      (h : Rewrites source edits start text) (hkept : getText source start stop = some kept) :
      Rewrites source edits stop (text ++ kept)
  | edit {edits : List TextEdit} {text cut : Str} (edit : TextEdit)
      (h : Rewrites source edits edit.range.start text)
      (hcut : getText source edit.range.start edit.range.stop = some cut) :
      Rewrites source (edits ++ [edit]) edit.range.stop (text ++ edit.replacement)

namespace Rewrites

variable {source text : Str} {edits : List TextEdit} {stop : Nat}

/-- The edits are in order, and none overlaps the next. -/
theorem sorted (h : Rewrites source edits stop text) :
    (∀ edit ∈ edits, edit.range.stop ≤ stop) ∧
      edits.Pairwise fun first second => first.range.stop ≤ second.range.start := by
  induction h with
  | nil => exact ⟨by rintro _ ⟨⟩, List.Pairwise.nil⟩
  | keep _ hkept ih =>
    obtain ⟨_, _, -, -, rfl⟩ := getText_eq_some_iff.mp hkept
    exact ⟨fun edit hmem => Nat.le_trans (ih.1 edit hmem) (Nat.le_add_right _ _), ih.2⟩
  | edit edit _ hcut ih =>
    constructor
    · intro other hmem
      rcases List.mem_append.mp hmem with hmem | hmem
      · exact Nat.le_trans (ih.1 other hmem) edit.range.le
      · rw [List.mem_singleton.mp hmem]
    · rw [List.pairwise_append]
      refine ⟨ih.2, List.pairwise_singleton _ _, fun other hmem edit' hmem' => ?_⟩
      rw [List.mem_singleton.mp hmem']
      exact ih.1 other hmem

theorem boundaries (h : Rewrites source edits stop text) :
    ∀ edit ∈ edits, Boundary source edit.range.start ∧ Boundary source edit.range.stop := by
  induction h with
  | nil => rintro _ ⟨⟩
  | keep _ _ ih => exact ih
  | edit edit _ hcut ih =>
    intro other hmem
    rcases List.mem_append.mp hmem with hmem | hmem
    · exact ih other hmem
    · rw [List.mem_singleton.mp hmem]
      exact (getText_isSome_iff.mp (Option.isSome_of_eq_some hcut)).2

/-- Applied back-to-front, the edits change the text before `stop` and keep what follows. -/
theorem apply (h : Rewrites source edits stop text) {before after : Str}
    (hsource : source = before ++ after) (hlen : byteLen before = stop) (after' : Str) :
    applyFormatEdits (before ++ after') edits = text ++ after' := by
  induction h generalizing before after after' with
  | nil =>
    rw [byteLen_eq_zero_iff.mp hlen]
    rfl
  | keep _ hkept ih =>
    obtain ⟨front, back, hsplit, rfl, rfl⟩ := getText_eq_some_iff.mp hkept
    rw [hsource] at hsplit
    obtain ⟨rfl, -⟩ := append_inj_byteLen hsplit (by rw [hlen, byteLen_append])
    rw [List.append_assoc, List.append_assoc]
    exact ih (hsource.trans (List.append_assoc _ _ _)) rfl _
  | @edit edits text cut edit _ hcut ih =>
    obtain ⟨front, back, hsplit, hfront, hback⟩ := getText_eq_some_iff.mp hcut
    rw [hsource] at hsplit
    obtain ⟨rfl, -⟩ := append_inj_byteLen hsplit (by rw [hlen, byteLen_append, hfront, hback])
    have hreplace : replaceRange (front ++ cut ++ after') edit =
        front ++ (edit.replacement ++ after') := by
      have h₁ : getText (front ++ cut ++ after') 0 edit.range.start = some front :=
        getText_eq_some_iff.mpr ⟨[], cut ++ after', by simp, rfl, by rw [Nat.zero_add, hfront]⟩
      have h₂ : getText (front ++ cut ++ after') edit.range.start edit.range.stop = some cut :=
        getText_eq_some_iff.mpr ⟨front, after', rfl, hfront, hback⟩
      have h₃ : getText (front ++ cut ++ after') edit.range.stop
          (byteLen (front ++ cut ++ after')) = some after' :=
        getText_eq_some_iff.mpr ⟨front ++ cut, [], by simp, hlen, by
          rw [← hlen, byteLen_append (front ++ cut)]⟩
      rw [replaceRange, h₁, h₂, h₃]
      exact List.append_assoc _ _ _
    rw [applyFormatEdits, List.reverse_append, List.reverse_singleton, List.singleton_append,
      List.foldl_cons, hreplace, List.append_assoc]
    exact ih (hsource.trans (List.append_assoc _ _ _)) hfront _

end Rewrites

/-! ## The pieces -/

section

variable {source text : Str} {edits edits' : List TextEdit} {start stop : Nat}

theorem textRange_eq_some {range : TextRange} (h : textRange start stop = some range) :
    range.start = start ∧ range.stop = stop := by
  unfold textRange at h
  obtain ⟨start', h₁, h⟩ := Option.bind_eq_some_iff.mp h
  obtain ⟨stop', h₂, h⟩ := Option.bind_eq_some_iff.mp h
  obtain ⟨-, rfl⟩ := tryU32_eq_some_iff.mp h₁
  obtain ⟨-, rfl⟩ := tryU32_eq_some_iff.mp h₂
  unfold TextRange.new at h
  split_ifs at h
  cases h
  exact ⟨rfl, rfl⟩

theorem rewrites_pushChangedRange (h : Rewrites source edits start text) {replacement : Str}
    (hpush : pushChangedRange edits source start stop replacement = some edits') :
    Rewrites source edits' stop (text ++ replacement) := by
  unfold pushChangedRange at hpush
  obtain ⟨old, hold, hpush⟩ := Option.bind_eq_some_iff.mp hpush
  split_ifs at hpush with heq
  · cases hpush
    exact h.keep (heq ▸ hold)
  · obtain ⟨range, hrange, hpush⟩ := Option.bind_eq_some_iff.mp hpush
    cases hpush
    obtain ⟨rfl, rfl⟩ := textRange_eq_some hrange
    exact Rewrites.edit ⟨range, replacement⟩ h hold

theorem lowerTo_le (ok : Nat → Bool) (n : Nat) : lowerTo ok n ≤ n := by
  induction n with
  | zero => exact le_rfl
  | succ n ih =>
    rw [lowerTo]
    split_ifs
    · exact le_rfl
    · omega

theorem lowerTo_ok (ok : Nat → Bool) (hzero : ok 0 = true) (n : Nat) :
    ok (lowerTo ok n) = true := by
  induction n with
  | zero => exact hzero
  | succ n ih =>
    rw [lowerTo]
    split_ifs with h
    · exact h
    · exact ih

/-- The common front of two lists. -/
theorem take_eq_of_le_takeWhile {left right : List UInt8} {m n : Nat}
    (h : n ≤ (((left.zip right).take m).takeWhile fun pair => pair.1 == pair.2).length) :
    left.take n = right.take n := by
  induction left generalizing right m n with
  | nil =>
    simp only [List.zip_nil_left, List.take_nil, List.takeWhile_nil, List.length_nil] at h
    rw [Nat.le_zero.mp h]
    rfl
  | cons a left ih =>
    cases right with
    | nil =>
      simp only [List.zip_nil_right, List.take_nil, List.takeWhile_nil, List.length_nil] at h
      rw [Nat.le_zero.mp h]
      rfl
    | cons b right =>
      cases n with
      | zero => rfl
      | succ n =>
        cases m with
        | zero => simp at h
        | succ m =>
          rw [List.zip_cons_cons, List.take_succ_cons, List.takeWhile_cons] at h
          split_ifs at h with hab
          · obtain rfl : a = b := beq_iff_eq.mp hab
            rw [List.length_cons] at h
            rw [List.take_succ_cons, List.take_succ_cons, ih (Nat.le_of_succ_le_succ h)]
          · simp at h

theorem commonPrefix_eq (left right : List UInt8) : commonPrefix left right =
    (((left.zip right).take (left.zip right).length).takeWhile
      fun pair => pair.1 == pair.2).length := by
  rw [List.take_length]
  rfl

/-- A token whose text changes in the middle only. -/
theorem rewrites_pushMinimalTokenEdit (h : Rewrites source edits start text) {before after : Str}
    (hbefore : getText source start stop = some before)
    (hpush : pushMinimalTokenEdit edits before after start = some edits') :
    Rewrites source edits' stop (text ++ after) := by
  unfold pushMinimalTokenEdit at hpush
  extract_lets beforeBytes afterBytes front maxBack back at hpush
  obtain ⟨range, hrange, hpush⟩ := Option.bind_eq_some_iff.mp hpush
  obtain ⟨replacement, hreplacement, hpush⟩ := Option.bind_eq_some_iff.mp hpush
  cases hpush
  -- the front that both tokens have in common
  have hfront : (isCharBoundary before front && isCharBoundary after front) = true :=
    lowerTo_ok (fun count => isCharBoundary before count && isCharBoundary after count) rfl _
  rw [Bool.and_eq_true, isCharBoundary_iff, isCharBoundary_iff] at hfront
  obtain ⟨⟨fore, tail, rfl, hfore⟩, fore', tail', rfl, hfore'⟩ := hfront
  have hfrontTake : beforeBytes.take front = afterBytes.take front :=
    take_eq_of_le_takeWhile (by rw [← commonPrefix_eq]; exact lowerTo_le _ _)
  obtain rfl : fore = fore' := by
    refine Utf8.encode_injective ?_
    have h₁ : beforeBytes.take front = Utf8.encode fore := by
      rw [← hfore]
      exact (congrArg _ (Utf8.encode_append fore tail)).trans List.take_left
    have h₂ : afterBytes.take front = Utf8.encode fore' := by
      rw [← hfore']
      exact (congrArg _ (Utf8.encode_append fore' tail')).trans List.take_left
    rw [← h₁, ← h₂, hfrontTake]
  -- the back that both have in common behind it
  have hback : (isCharBoundary (fore ++ tail) (byteLen (fore ++ tail) - back) &&
      isCharBoundary (fore ++ tail') (byteLen (fore ++ tail') - back)) = true := by
    refine lowerTo_ok (fun count =>
      isCharBoundary (fore ++ tail) (byteLen (fore ++ tail) - count) &&
        isCharBoundary (fore ++ tail') (byteLen (fore ++ tail') - count)) ?_ _
    rw [Nat.sub_zero, Nat.sub_zero, Bool.and_eq_true, isCharBoundary_iff, isCharBoundary_iff]
    exact ⟨Boundary.end _, Boundary.end _⟩
  rw [Bool.and_eq_true, isCharBoundary_iff, isCharBoundary_iff] at hback
  obtain ⟨⟨most, rear, heq, hmost⟩, most', rear', heq', hmost'⟩ := hback
  have hbackLe : back ≤ maxBack := by
    refine (lowerTo_le _ _).trans ?_
    exact (List.takeWhile_prefix _).length_le.trans (List.length_take_le _ _)
  have hmaxBack : maxBack = min (byteLen (fore ++ tail)) (byteLen (fore ++ tail')) - front := rfl
  have hbackTake : beforeBytes.reverse.take back = afterBytes.reverse.take back :=
    take_eq_of_le_takeWhile (lowerTo_le _ _)
  obtain rfl : rear = rear' := by
    refine Utf8.encode_injective (List.reverse_injective ?_)
    have hrear {most rear text : Str} (heq : text = most ++ rear)
        (hmost : byteLen most = byteLen text - back) (hle : back ≤ byteLen text) :
        (Utf8.encode text).reverse.take back = (Utf8.encode rear).reverse := by
      rw [heq, byteLen_append] at hmost hle
      have hlen : (Utf8.encode rear).reverse.length = back := by
        rw [List.length_reverse]
        change byteLen rear = back
        omega
      rw [heq, Utf8.encode_append, List.reverse_append, ← hlen, List.take_left]
    rw [← hrear heq hmost (by omega), ← hrear heq' hmost' (by omega)]
    exact hbackTake
  have hle : front ≤ byteLen (fore ++ tail) := by
    rw [byteLen_append]
    exact hfore ▸ Nat.le_add_right _ _
  have hle' : front ≤ byteLen (fore ++ tail') := by
    rw [byteLen_append]
    exact hfore ▸ Nat.le_add_right _ _
  obtain ⟨middle, rfl, rfl⟩ := append_prefix_byteLen heq (by rw [hmost, hfore]; omega)
  obtain ⟨middle', rfl, rfl⟩ := append_prefix_byteLen heq' (by rw [hmost', hfore]; omega)
  obtain rfl : replacement = middle' := by
    have hcut : getText (fore ++ (middle' ++ rear)) front
        (byteLen (fore ++ (middle' ++ rear)) - back) = some middle' :=
      getText_eq_some_iff.mpr ⟨fore, rear, (List.append_assoc _ _ _).symm, hfore, by
        rw [← hmost', byteLen_append, hfore]⟩
    exact Option.some.inj (hreplacement.symm.trans hcut)
  obtain ⟨hstart, hstop⟩ := textRange_eq_some hrange
  obtain ⟨hcutFore, hcutTail⟩ := getText_cut hbefore
  obtain ⟨hcutMiddle, hcutRear⟩ := getText_cut hcutTail
  rw [byteLen_append] at hmost
  have hstart' : range.start = start + byteLen fore := by rw [hstart, hfore]
  have hstop' : range.stop = start + byteLen fore + byteLen middle := by
    rw [hstop]
    omega
  rw [← hstop'] at hcutMiddle hcutRear
  rw [← hstart'] at hcutFore hcutMiddle
  have hrewrites := (((h.keep hcutFore).edit ⟨range, replacement⟩ hcutMiddle).keep hcutRear)
  simpa only [List.append_assoc] using hrewrites

end

/-! ## The tokens -/

section

variable {original formatted : Document} {edits edits' : List TextEdit} {text : Str}

/-- One token after the other: what the source has become so far is the formatted text so far. -/
theorem rewrites_tokenEdits {pairs : List (SyntaxToken × SyntaxToken)}
    {beforeEnd afterEnd beforeEnd' afterEnd' : Nat}
    (h : Rewrites original.file.source edits beforeEnd text)
    (hafter : getText formatted.file.source 0 afterEnd = some text)
    (hedits : tokenEdits original formatted pairs edits beforeEnd afterEnd =
      some (edits', beforeEnd', afterEnd')) :
    ∃ text', Rewrites original.file.source edits' beforeEnd' text' ∧
      getText formatted.file.source 0 afterEnd' = some text' := by
  induction pairs generalizing edits beforeEnd afterEnd text with
  | nil =>
    cases hedits
    exact ⟨text, h, hafter⟩
  | cons pair pairs ih =>
    obtain ⟨before, after⟩ := pair
    rw [tokenEdits] at hedits
    split_ifs at hedits
    obtain ⟨gap, hgap, hedits⟩ := Option.bind_eq_some_iff.mp hedits
    obtain ⟨edits₁, hpush, hedits⟩ := Option.bind_eq_some_iff.mp hedits
    obtain ⟨beforeText, hbeforeText, hedits⟩ := Option.bind_eq_some_iff.mp hedits
    obtain ⟨afterText, hafterText, hedits⟩ := Option.bind_eq_some_iff.mp hedits
    have hstart := rewrites_pushChangedRange h hpush
    have hafter' := getText_append (getText_append hafter hgap) hafterText
    dsimp only at hedits
    split_ifs at hedits with heq
    · exact ih (hstart.keep (heq ▸ hbeforeText)) hafter' hedits
    · obtain ⟨edits₂, htoken, hedits⟩ := Option.bind_eq_some_iff.mp hedits
      exact ih (rewrites_pushMinimalTokenEdit hstart hbeforeText htoken) hafter' hedits
    · cases hedits

theorem rewrites_minimalEdits (hedits : minimalEdits original formatted = some edits) :
    Rewrites original.file.source edits (byteLen original.file.source) formatted.file.source := by
  unfold minimalEdits at hedits
  split_ifs at hedits
  obtain ⟨⟨edits₁, beforeEnd, afterEnd⟩, htokens, hedits⟩ := Option.bind_eq_some_iff.mp hedits
  obtain ⟨tail, htail, hpush⟩ := Option.bind_eq_some_iff.mp hedits
  obtain ⟨text, htext, hafter⟩ :=
    rewrites_tokenEdits .nil (getText_self (Boundary.zero _)) htokens
  have hall := getText_append hafter htail
  rw [getText_full] at hall
  rw [Option.some.inj hall]
  exact rewrites_pushChangedRange htext hpush

end

/-! ## The formatter -/

section

variable {width : Char → Option Nat} {format : FileFormat} {source : Str} {doc : Document}

theorem parseDocument_file (h : parseDocument format source = some doc) :
    doc.file.format = format ∧ doc.file.source = source := by
  unfold parseDocument parse parseWithRevision document at h
  obtain ⟨file, hfile, h⟩ := Option.bind_eq_some_iff.mp h
  obtain ⟨root, -, rfl⟩ := Option.map_eq_some_iff.mp h
  obtain ⟨parts, -, rfl⟩ := Option.map_eq_some_iff.mp hfile
  exact ⟨rfl, rfl⟩

/-- What is known of a document that the formatter does not skip. -/
theorem formatDocument_eq_some {edits : List TextEdit}
    (h : formatDocument width doc = some ⟨edits, none⟩) :
    doc.file.errors = [] ∧
      ((edits = [] ∧ canonicalText width doc = doc.file.source) ∨
        ∃ reparsed, parseDocument doc.file.format (canonicalText width doc) = some reparsed ∧
          reparsed.file.errors = [] ∧ equivalent maxQuotedScriptDepth doc reparsed = true ∧
          canonicalText width reparsed = canonicalText width doc ∧
          minimalEdits doc reparsed = some edits) := by
  unfold formatDocument at h
  split_ifs at h with herrors
  · cases h
  · rw [not_not] at herrors
    extract_lets formatted at h
    split_ifs at h with hsame
    · cases h
      exact ⟨herrors, .inl ⟨rfl, hsame⟩⟩
    · obtain ⟨reparsed, hreparsed, h⟩ := Option.map_eq_some_iff.mp h
      split_ifs at h with hunsafe
      · cases h
      · push Not at hunsafe
        obtain ⟨herrors', hequivalent, hcanonical⟩ := hunsafe
        cases hedits : minimalEdits doc reparsed with
        | none => rw [hedits] at h; cases h
        | some edits' =>
          rw [hedits] at h
          cases h
          rw [Ne, Bool.not_eq_false] at hequivalent
          exact ⟨herrors, .inr ⟨reparsed, hreparsed, herrors', hequivalent, hcanonical, hedits⟩⟩

/-- The edits lead from the source to its canonical text. -/
theorem rewrites_formatDocument {edits : List TextEdit}
    (h : formatDocument width doc = some ⟨edits, none⟩) :
    Rewrites doc.file.source edits (byteLen doc.file.source) (canonicalText width doc) := by
  obtain ⟨-, ⟨rfl, hsame⟩ | ⟨reparsed, hreparsed, -, -, -, hedits⟩⟩ := formatDocument_eq_some h
  · rw [hsame]
    exact Rewrites.nil.keep (getText_full _)
  · rw [← (parseDocument_file hreparsed).2]
    exact rewrites_minimalEdits hedits

/-- The canonical text of a document that is not skipped is its own canonical text. -/
theorem formatSource_canonicalText {edits : List TextEdit}
    (hparse : parseDocument format source = some doc)
    (h : formatDocument width doc = some ⟨edits, none⟩) :
    formatSource width format (canonicalText width doc) = some ⟨[], none⟩ := by
  obtain ⟨hformat, hsource⟩ := parseDocument_file hparse
  obtain ⟨herrors, ⟨-, hsame⟩ | ⟨reparsed, hreparsed, herrors', -, hcanonical, -⟩⟩ :=
    formatDocument_eq_some h
  · rw [hsame, hsource, formatSource, hparse, Option.bind_some]
    unfold formatDocument
    rw [if_neg (not_not.mpr herrors)]
    exact if_pos hsame
  · rw [hformat] at hreparsed
    rw [formatSource, hreparsed, Option.bind_some]
    unfold formatDocument
    rw [if_neg (not_not.mpr herrors')]
    exact if_pos (hcanonical.trans (parseDocument_file hreparsed).2.symm)

end

theorem formatSource_realises {width : Char → Option Nat} {format : FileFormat} {source : Str}
    {edits : List TextEdit} (h : formatSource width format source = some ⟨edits, none⟩) :
    (edits.Pairwise fun first second => first.range.stop ≤ second.range.start) ∧
      (∀ edit ∈ edits, Boundary source edit.range.start ∧ Boundary source edit.range.stop) ∧
      (∃ doc, parseDocument format source = some doc ∧
        applyFormatEdits source edits = canonicalText width doc) ∧
      formatSource width format (applyFormatEdits source edits) = some ⟨[], none⟩ := by
  obtain ⟨doc, hparse, hformat⟩ := Option.bind_eq_some_iff.mp h
  have hrewrites := rewrites_formatDocument hformat
  rw [(parseDocument_file hparse).2] at hrewrites
  have happly : applyFormatEdits source edits = canonicalText width doc := by
    simpa only [List.append_nil] using hrewrites.apply (List.append_nil _).symm rfl []
  refine ⟨hrewrites.sorted.2, hrewrites.boundaries, ⟨doc, hparse, happly⟩, ?_⟩
  rw [happly]
  exact formatSource_canonicalText hparse hformat

/-- Edits of a formatted source are in order, stand on character boundaries and realise the
canonical text, which is formatted already. -/
theorem realises (width : Char → Option Nat) (format : FileFormat) (source : Str)
    (edits : List TextEdit) (h : formatSource width format source = some ⟨edits, none⟩) :
    (edits.Pairwise fun first second => first.range.stop ≤ second.range.start) ∧
      (∀ edit ∈ edits, Boundary source edit.range.start ∧ Boundary source edit.range.stop) ∧
      (∃ doc, parseDocument format source = some doc ∧
        applyFormatEdits source edits = canonicalText width doc) ∧
      formatSource width format (applyFormatEdits source edits) = some ⟨[], none⟩ :=
  formatSource_realises h

/-- The edits of `not=x`. -/
def assignmentEdits : List TextEdit :=
  [⟨⟨0, 3, by decide⟩, "NOT".toList⟩, ⟨⟨3, 3, by decide⟩, [' ']⟩, ⟨⟨4, 4, by decide⟩, [' ']⟩,
    ⟨⟨5, 5, by decide⟩, ['\n']⟩]

theorem formatSource_assignment :
    formatSource (fun _ => some 1) .script "not=x".toList = some ⟨assignmentEdits, none⟩ := by
  decide +kernel

theorem realises_assignment :
    (∃ doc, parseDocument .script "not=x".toList = some doc ∧
        applyFormatEdits "not=x".toList assignmentEdits = canonicalText (fun _ => some 1) doc) ∧
      formatSource (fun _ => some 1) .script (applyFormatEdits "not=x".toList assignmentEdits) =
        some ⟨[], none⟩ :=
  (realises (fun _ => some 1) .script "not=x".toList assignmentEdits formatSource_assignment).2.2

end ParadoxCode.Format
