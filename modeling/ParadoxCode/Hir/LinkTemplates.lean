import ParadoxCode.Hir.TemplateRelations
import ParadoxCode.Lib.AsciiCase
import ParadoxCode.Lib.Gaps
import ParadoxCode.Rules.ScopeModel
import ParadoxCode.Rules.TypeSpelling

/-!
# Keys of scope links

`template_key_matches` of `ir_lowering.rs` over the bytes of a key. It slices at character
boundaries only and is what the scope model reads (`templateKeyScan_eq`). Every literal behind a
hole is taken at its first place and never tried again, so a key is accepted exactly if the leftmost
assignment spells it (`templateKeyMatches_iff`). For a link that ends in a hole that is no loss.
-/

namespace ParadoxCode.Hir

open AsciiCase
open Format (eqIgnoreAsciiCase)
open Rules
open Rules.TypeExpr (Expr LiteralPart parseTemplate)
open Substrings (find)
open TemplateRelations (byteLen_map_toLower byteLen_of_eqIgnoreAsciiCase)

/-! ## The scan over bytes -/

/-- `lower_template`, where the holes are lowered as given. -/
def lowerTemplate (lowerExpr : Expr → MatcherId) (parts : List LiteralPart) : List PatternPart :=
  parts.map fun part =>
    match part with
    | .text text => .text text
    | .hole hole => .hole (lowerExpr hole)

/-- `eq_ignore_ascii_case` of bytes. -/
def bytesEqIgnoreAsciiCase (left right : List UInt8) : Bool :=
  left.map lowerByte == right.map lowerByte

/-- `find_ascii_case_insensitive`: the position among the windows of the bytes. -/
def findInBytes (text needle : Str) : Option Nat :=
  if needle.isEmpty then some 0
  else
    (List.range (byteLen text + 1 - byteLen needle)).find? fun offset =>
      bytesEqIgnoreAsciiCase (((Utf8.encode text).drop offset).take (byteLen needle))
        (Utf8.encode needle)

/-- `&key[cursor..]`, which panics inside a character. -/
def sliceFrom (key : Str) (cursor : Nat) : Option Str := getText key cursor (byteLen key)

/-- The loop of `template_key_matches` with its cursor; the flag is set at the first part. -/
def scanParts (key : Str) : Bool → List PatternPart → Nat → Option Bool
  | _, [], cursor => some (cursor == byteLen key)
  | true, .text literal :: parts, cursor => do
    let tail ← sliceFrom key cursor
    if (getText tail 0 (byteLen literal)).any (fun head => eqIgnoreAsciiCase head literal) =
      true then
      scanParts key false parts (cursor + byteLen literal)
    else some false
  | false, .text literal :: parts, cursor => do
    let tail ← sliceFrom key cursor
    match findInBytes tail literal with
    | none => some false
    | some offset => scanParts key false parts (cursor + (offset + byteLen literal))
  | _, [.hole _], _ => scanParts key false [] (byteLen key)
  | _, .hole _ :: .text next :: parts, cursor => do
    let tail ← sliceFrom key cursor
    match findInBytes tail next with
    | none => some false
    | some offset => scanParts key false (.text next :: parts) (cursor + offset)
  | _, .hole _ :: .hole other :: parts, cursor => scanParts key false (.hole other :: parts) cursor

/-- `template_key_matches`; nothing where it slices inside a character. -/
def templateKeyScan (parts : List PatternPart) (key : Str) : Option Bool :=
  match parts with
  | [.text text] => some (eqIgnoreAsciiCase key text)
  | _ => scanParts key true parts 0

theorem sliceFrom_append (before rest : Str) : sliceFrom (before ++ rest) (byteLen before) =
    some rest :=
  getText_eq_some_iff.mpr ⟨before, [], (List.append_nil _).symm, rfl, (byteLen_append _ _).symm⟩

theorem findAsciiCaseInsensitive_eq (text needle : Str) :
    findAsciiCaseInsensitive text needle = find (toAsciiLowercase needle)
      (toAsciiLowercase text) := by
  unfold findAsciiCaseInsensitive find toAsciiLowercase eqIgnoreAsciiCase
  rw [List.length_map, List.length_map]
  refine congrArg (fun p => List.find? p _) (funext fun offset => Bool.eq_iff_iff.mpr ?_)
  rw [List.map_take, List.map_drop, beq_iff_eq, decide_eq_true_iff]

/-- The bytes of a word are found where the word is found. -/
theorem findInBytes_eq (text needle : Str) :
    findInBytes text needle = (findAsciiCaseInsensitive text needle).map fun offset =>
      byteLen (text.take offset) := by
  cases needle with
  | nil =>
    have hfind : findAsciiCaseInsensitive text [] = some 0 := by
      rw [findAsciiCaseInsensitive_eq]
      exact Substrings.find_append [] _
    rw [hfind]
    rfl
  | cons c needle =>
    have hbytes : findInBytes text (c :: needle) =
      find (Utf8.encode (toAsciiLowercase (c :: needle)))
        (Utf8.encode (toAsciiLowercase text)) := by
      unfold findInBytes find toAsciiLowercase bytesEqIgnoreAsciiCase
      rw [encode_map_toLower, encode_map_toLower, List.length_map, List.length_map]
      refine congrArg (fun p => List.find? p _) (funext fun offset => Bool.eq_iff_iff.mpr ?_)
      rw [List.map_take, List.map_drop, beq_iff_eq, decide_eq_true_iff]
      rfl
    have hword : toAsciiLowercase (c :: needle) ≠ [] := List.cons_ne_nil _ _
    rw [hbytes, Substrings.find_encode hword, findAsciiCaseInsensitive_eq]
    refine congrArg (fun f => Option.map f _) (funext fun offset => ?_)
    unfold toAsciiLowercase
    rw [← List.map_take]
    exact byteLen_map_toLower _

theorem byteLen_find {rest literal : Str} {offset : Nat}
    (h : findAsciiCaseInsensitive rest literal = some offset) :
    byteLen (rest.take offset) + byteLen literal = byteLen
      (rest.take (offset + literal.length)) := by
  have heq : eqIgnoreAsciiCase ((rest.drop offset).take literal.length) literal = true := by
    unfold findAsciiCaseInsensitive at h
    simpa using List.find?_some h
  rw [← byteLen_of_eqIgnoreAsciiCase heq, ← byteLen_append, ← List.take_add]

/-- The literal at the front of the rest, over bytes and over characters. -/
theorem head_iff {rest literal : Str} :
    (getText rest 0 (byteLen literal)).any (fun head => eqIgnoreAsciiCase head literal) = true ↔
      eqIgnoreAsciiCase (rest.take literal.length) literal = true := by
  rw [Option.any_eq_true]
  constructor
  · rintro ⟨head, hhead, heq⟩
    obtain ⟨before, after, rfl, hbefore, -⟩ := getText_eq_some_iff.mp hhead
    obtain rfl := byteLen_eq_zero_iff.mp hbefore
    have hlength : head.length = literal.length := by
      unfold eqIgnoreAsciiCase at heq
      rw [← List.length_map (f := Char.toLower), beq_iff_eq.mp heq, List.length_map]
    rw [List.nil_append, ← hlength, List.take_left]
    exact heq
  · intro heq
    refine ⟨rest.take literal.length, getText_eq_some_iff.mpr
      ⟨[], rest.drop literal.length, ?_, rfl, ?_⟩, heq⟩
    · exact (List.take_append_drop _ _).symm
    · rw [Nat.zero_add, byteLen_of_eqIgnoreAsciiCase heq]

variable {parts : List PatternPart}

/-- The cursor moves over a front of the rest. -/
theorem scanParts_advance {rest : Str} {width : Nat} {accepted : Bool}
    (h : ∀ before : Str, scanParts (before ++ rest.drop width) false parts (byteLen before) =
      some accepted)
    (before : Str) :
    scanParts (before ++ rest) false parts (byteLen before + byteLen (rest.take width)) =
      some accepted := by
  have hnext := h (before ++ rest.take width)
  rwa [List.append_assoc, List.take_append_drop, byteLen_append] at hnext

/-- The scan stays at boundaries and decides as the walk over the characters. -/
theorem scanParts_eq (first : Bool) (parts : List PatternPart) (rest : Str) : ∀ before : Str,
    scanParts (before ++ rest) first parts (byteLen before) =
      some (templateKeyRest first parts rest) := by
  induction first, parts, rest using templateKeyRest.induct with
  | case1 first rest =>
    intro before
    rw [scanParts, templateKeyRest, byteLen_append]
    refine congrArg some (Bool.eq_iff_iff.mpr ?_)
    rw [beq_iff_eq, beq_iff_eq, ← byteLen_eq_zero_iff]
    omega
  | case2 literal parts rest ih =>
    intro before
    rw [scanParts, sliceFrom_append, templateKeyRest]
    simp only [Option.bind_eq_bind, Option.bind_some, head_iff]
    by_cases hhead : eqIgnoreAsciiCase (rest.take literal.length) literal = true
    · rw [if_pos hhead, hhead, Bool.true_and, ← byteLen_of_eqIgnoreAsciiCase hhead]
      exact scanParts_advance ih before
    · rw [if_neg hhead, Bool.eq_false_iff.mpr hhead, Bool.false_and]
  | case3 literal parts rest hfind =>
    intro before
    rw [scanParts, sliceFrom_append, templateKeyRest, hfind]
    simp only [Option.bind_eq_bind, Option.bind_some, findInBytes_eq, hfind, Option.map_none]
  | case4 literal parts rest offset hfind ih =>
    intro before
    rw [scanParts, sliceFrom_append, templateKeyRest, hfind]
    simp only [Option.bind_eq_bind, Option.bind_some, findInBytes_eq, hfind, Option.map_some]
    rw [byteLen_find hfind]
    exact scanParts_advance ih before
  | case5 first matcher rest =>
    intro before
    rw [scanParts, scanParts, templateKeyRest, beq_self_eq_true]
  | case6 first matcher next parts rest hfind =>
    intro before
    rw [scanParts, sliceFrom_append, templateKeyRest, hfind]
    simp only [Option.bind_eq_bind, Option.bind_some, findInBytes_eq, hfind, Option.map_none]
  | case7 first matcher next parts rest offset hfind ih =>
    intro before
    rw [scanParts, sliceFrom_append, templateKeyRest, hfind]
    simp only [Option.bind_eq_bind, Option.bind_some, findInBytes_eq, hfind, Option.map_some]
    exact scanParts_advance ih before
  | case8 first matcher other parts rest ih =>
    intro before
    rw [scanParts, templateKeyRest]
    exact ih before

/-- The scan never slices inside a character, and it is what the scope model reads. -/
theorem templateKeyScan_eq (parts : List PatternPart) (key : Str) :
    templateKeyScan parts key = some (templateKeyMatches parts key) := by
  have hscan : scanParts key true parts 0 = some (templateKeyRest true parts key) :=
    scanParts_eq true parts key []
  match parts, hscan with
  | [.text text], _ => rfl
  | [], hscan => exact hscan
  | [.hole _], hscan => exact hscan
  | .text _ :: _ :: _, hscan => exact hscan
  | .hole _ :: _ :: _, hscan => exact hscan

/-! ## Assignments -/

/-- The keys that a pattern spells: the holes take parts of the key, and the literals stand in their
places. -/
def Spells : List PatternPart → Str → Prop
  | [], key => key = []
  | .text literal :: parts, key =>
    ∃ head rest, key = head ++ rest ∧ eqIgnoreAsciiCase head literal = true ∧ Spells parts rest
  | .hole _ :: parts, key => ∃ taken rest, key = taken ++ rest ∧ Spells parts rest

/-- The leftmost assignment spells the key: a hole in front of a literal ends where the literal
first stands, a hole in front of another one takes nothing, and a hole at the end takes the rest. -/
def SpellsLeftmost : List PatternPart → Str → Prop
  | [], key => key = []
  | .text literal :: parts, key =>
    ∃ head rest, key = head ++ rest ∧ eqIgnoreAsciiCase head literal = true ∧
      SpellsLeftmost parts rest
  | [.hole _], _ => True
  | .hole _ :: .hole other :: parts, key => SpellsLeftmost (.hole other :: parts) key
  | .hole _ :: .text literal :: parts, key =>
    ∃ taken head rest, key = taken ++ (head ++ rest) ∧ eqIgnoreAsciiCase head literal = true ∧
      (∀ taken' head' rest', key = taken' ++ (head' ++ rest') →
        eqIgnoreAsciiCase head' literal = true → taken.length ≤ taken'.length) ∧
        SpellsLeftmost parts rest

/-- A part without case. -/
def foldedPart : PatternPart → Gaps.Part Char
  | .text literal => .word (toAsciiLowercase literal)
  | .hole _ => .gap

theorem eqIgnoreAsciiCase_iff_folded {left right : Str} :
    eqIgnoreAsciiCase left right = true ↔ toAsciiLowercase left = toAsciiLowercase right :=
  beq_iff_eq

/-- A folded text is cut where the text is. -/
theorem folded_eq_append {key front back : Str} : toAsciiLowercase key = front ++ back ↔
    ∃ head rest, key = head ++ rest ∧ toAsciiLowercase head = front ∧
    toAsciiLowercase rest = back :=
  List.map_eq_append_iff

theorem spells_iff : ∀ {key : Str},
    Spells parts key ↔ Gaps.Spelled (parts.map foldedPart) (toAsciiLowercase key) := by
  induction parts with
  | nil => exact List.map_eq_nil_iff.symm
  | cons part parts ih =>
    intro key
    cases part with
    | text literal =>
      constructor
      · rintro ⟨head, rest, rfl, hhead, hrest⟩
        refine ⟨toAsciiLowercase rest, ?_, ih.mp hrest⟩
        rw [← eqIgnoreAsciiCase_iff_folded.mp hhead]
        exact List.map_append
      · rintro ⟨folded, hfolded, hrest⟩
        obtain ⟨head, rest, rfl, hhead, rfl⟩ := folded_eq_append.mp hfolded
        exact ⟨head, rest, rfl, eqIgnoreAsciiCase_iff_folded.mpr hhead, ih.mpr hrest⟩
    | hole matcher =>
      constructor
      · rintro ⟨taken, rest, rfl, hrest⟩
        exact ⟨toAsciiLowercase taken, toAsciiLowercase rest, List.map_append, ih.mp hrest⟩
      · rintro ⟨front, folded, hfolded, hrest⟩
        obtain ⟨taken, rest, rfl, rfl, rfl⟩ := folded_eq_append.mp hfolded
        exact ⟨taken, rest, rfl, ih.mpr hrest⟩

/-- A literal first stands in a key where its folded text is found. -/
theorem first_iff {literal key : Str} {P : Str → Prop} :
    (∃ taken head rest, key = taken ++ (head ++ rest) ∧ eqIgnoreAsciiCase head literal = true ∧
      (∀ taken' head' rest', key = taken' ++ (head' ++ rest') →
        eqIgnoreAsciiCase head' literal = true → taken.length ≤ taken'.length) ∧ P rest) ↔
      ∃ i, find (toAsciiLowercase literal) (toAsciiLowercase key) = some i ∧
        P (key.drop (i + literal.length)) := by
  have hplace : ∀ {i : Nat}, Substrings.OccursAt (toAsciiLowercase literal)
    (toAsciiLowercase key) i ↔
      ∃ taken head rest, key = taken ++ (head ++ rest) ∧ eqIgnoreAsciiCase head literal = true ∧
        taken.length = i := by
    intro i
    rw [Substrings.occursAt_iff]
    constructor
    · rintro ⟨front, back, hkey, hfront⟩
      obtain ⟨taken, rest, rfl, rfl, hrest⟩ := folded_eq_append.mp hkey
      obtain ⟨head, rest, rfl, hhead, -⟩ := folded_eq_append.mp hrest
      exact ⟨taken, head, rest, rfl, eqIgnoreAsciiCase_iff_folded.mpr hhead,
        List.length_map _ ▸ hfront⟩
    · rintro ⟨taken, head, rest, rfl, hhead, hlength⟩
      refine ⟨toAsciiLowercase taken, toAsciiLowercase rest, ?_, (List.length_map _).trans hlength⟩
      rw [← eqIgnoreAsciiCase_iff_folded.mp hhead]
      simp [toAsciiLowercase]
  have hlength : ∀ {head : Str}, eqIgnoreAsciiCase head literal = true →
    head.length = literal.length := by
    intro head hhead
    have hfolded := congrArg List.length (eqIgnoreAsciiCase_iff_folded.mp hhead)
    simpa [toAsciiLowercase] using hfolded
  constructor
  · rintro ⟨taken, head, rest, rfl, hhead, hfirst, hrest⟩
    refine ⟨taken.length, Substrings.find_eq_some_iff.mpr
      ⟨hplace.mpr ⟨taken, head, rest, rfl, hhead, rfl⟩, ?_⟩, ?_⟩
    · intro j hj hocc
      obtain ⟨taken', head', rest', hkey, hhead', rfl⟩ := hplace.mp hocc
      exact absurd (hfirst taken' head' rest' hkey hhead') (Nat.not_le_of_lt hj)
    · rw [← hlength hhead, ← List.drop_drop, List.drop_left, List.drop_left]
      exact hrest
  · rintro ⟨i, hfind, hrest⟩
    obtain ⟨hocc, hfirst⟩ := Substrings.find_eq_some_iff.mp hfind
    obtain ⟨taken, head, rest, rfl, hhead, rfl⟩ := hplace.mp hocc
    rw [← hlength hhead, ← List.drop_drop, List.drop_left, List.drop_left] at hrest
    refine ⟨taken, head, rest, rfl, hhead, fun taken' head' rest' hkey hhead' => ?_, hrest⟩
    exact Nat.not_lt.mp fun hlt => hfirst _ hlt
      (hplace.mpr ⟨taken', head', rest', hkey, hhead', rfl⟩)

theorem spellsLeftmost_iff : ∀ {parts : List PatternPart} {key : Str},
    SpellsLeftmost parts key ↔ Gaps.SpelledLeft (parts.map foldedPart) (toAsciiLowercase key)
  | [], key => List.map_eq_nil_iff.symm
  | .text literal :: parts, key => by
    constructor
    · rintro ⟨head, rest, rfl, hhead, hrest⟩
      refine ⟨toAsciiLowercase rest, ?_, spellsLeftmost_iff.mp hrest⟩
      rw [← eqIgnoreAsciiCase_iff_folded.mp hhead]
      exact List.map_append
    · rintro ⟨folded, hfolded, hrest⟩
      obtain ⟨head, rest, rfl, hhead, rfl⟩ := folded_eq_append.mp hfolded
      exact ⟨head, rest, rfl, eqIgnoreAsciiCase_iff_folded.mpr hhead, spellsLeftmost_iff.mpr hrest⟩
  | [.hole _], key => Iff.rfl
  | .hole _ :: .hole other :: parts, key => by
    have htail : SpellsLeftmost (.hole other :: parts) key ↔
        Gaps.SpelledLeft ((PatternPart.hole other :: parts).map foldedPart)
          (toAsciiLowercase key) :=
      spellsLeftmost_iff
    exact htail
  | .hole _ :: .text literal :: parts, key => by
    refine Iff.trans first_iff (exists_congr fun i => and_congr_right fun _ => ?_)
    rw [spellsLeftmost_iff]
    unfold toAsciiLowercase
    rw [List.map_drop, List.length_map]

/-- The parts of a pattern are apart: no two texts stand next to each other. -/
def Apart (parts : List PatternPart) : Prop := Gaps.Apart (parts.map foldedPart)

/-- The walk over the characters takes the leftmost assignment. -/
theorem templateKeyRest_iff : ∀ {parts : List PatternPart} {first : Bool} {key : Str}, Apart parts →
    (first = true ∨ ∀ literal, parts.head? ≠ some (.text literal)) →
      (templateKeyRest first parts key = true ↔ SpellsLeftmost parts key)
  | [], first, key, _, _ => by
    rw [templateKeyRest]
    exact beq_iff_eq
  | .text literal :: parts, first, key, hapart, hfirst => by
    obtain rfl : first = true := hfirst.resolve_right fun h => h literal rfl
    have hrest : ∀ rest, templateKeyRest false parts rest = true ↔
      SpellsLeftmost parts rest := fun rest =>
      templateKeyRest_iff (Gaps.Apart.tail hapart) (.inr fun other hother => by
        obtain ⟨parts, rfl⟩ : ∃ rest, parts = .text other :: rest :=
          List.head?_eq_some_iff.mp hother
        cases Gaps.Apart.gap_of_word hapart)
    rw [templateKeyRest, Bool.and_eq_true_iff, hrest]
    constructor
    · rintro ⟨hhead, hkey⟩
      exact ⟨key.take literal.length, key.drop literal.length,
        (List.take_append_drop _ _).symm, hhead, hkey⟩
    · rintro ⟨head, rest, rfl, hhead, hkey⟩
      have hlength : head.length = literal.length := by
        simpa [toAsciiLowercase] using congrArg List.length (eqIgnoreAsciiCase_iff_folded.mp hhead)
      rw [← hlength, List.take_left, List.drop_left]
      exact ⟨hhead, hkey⟩
  | [.hole _], first, key, _, _ => by
    rw [templateKeyRest]
    exact iff_of_true rfl trivial
  | .hole _ :: .hole other :: parts, first, key, hapart, _ => by
    rw [templateKeyRest]
    have htail : Apart (.hole other :: parts) := Gaps.Apart.tail hapart
    exact templateKeyRest_iff htail (.inr nofun)
  | .hole _ :: .text literal :: parts, first, key, hapart, _ => by
    have hrest : ∀ rest, templateKeyRest false parts rest = true ↔
      SpellsLeftmost parts rest := fun rest =>
      templateKeyRest_iff (Gaps.Apart.tail (Gaps.Apart.tail hapart)) (.inr fun other hother => by
        obtain ⟨parts, rfl⟩ : ∃ rest, parts = .text other :: rest :=
          List.head?_eq_some_iff.mp hother
        cases Gaps.Apart.gap_of_word (Gaps.Apart.tail hapart))
    rw [SpellsLeftmost, first_iff, ← findAsciiCaseInsensitive_eq]
    rw [templateKeyRest]
    cases hfind : findAsciiCaseInsensitive key literal with
    | none => simp
    | some offset =>
      -- the literal is found again at once
      have hagain : findAsciiCaseInsensitive (key.drop offset) literal = some 0 := by
        rw [findAsciiCaseInsensitive_eq] at hfind ⊢
        obtain ⟨front, back, hkey, hfront⟩ := Substrings.occursAt_iff.mp
          (Substrings.find_eq_some_iff.mp hfind).1
        have hdrop : toAsciiLowercase (key.drop offset) = toAsciiLowercase literal ++ back := by
          have hmap : toAsciiLowercase (key.drop offset) = (toAsciiLowercase key).drop offset :=
            List.map_drop
          rw [hmap, hkey, ← hfront, List.drop_left]
        rw [hdrop, Substrings.find_append]
      dsimp only
      rw [templateKeyRest, hagain]
      simp only [List.drop_drop, Nat.zero_add, hrest, Option.some.injEq, exists_eq_left']

theorem templateKeyMatches_iff (h : Apart parts) (key : Str) :
    templateKeyMatches parts key = true ↔ SpellsLeftmost parts key := by
  have hrest : templateKeyRest true parts key = true ↔ SpellsLeftmost parts key :=
    templateKeyRest_iff h (.inl rfl)
  match parts, hrest with
  | [.text text], _ =>
    constructor
    · exact fun heq => ⟨key, [], (List.append_nil _).symm, heq, rfl⟩
    · rintro ⟨head, rest, rfl, hhead, rfl⟩
      rwa [List.append_nil]
  | [], hrest => exact hrest
  | [.hole _], hrest => exact hrest
  | .text _ :: _ :: _, hrest => exact hrest
  | .hole _ :: _ :: _, hrest => exact hrest

/-! ## Links -/

theorem apart_lowerTemplate {parts : List LiteralPart} (h : TypeExpr.Apart parts)
    (lowerExpr : Expr → MatcherId) : Apart (lowerTemplate lowerExpr parts) := by
  unfold Apart Gaps.Apart lowerTemplate
  rw [List.isChain_map, List.isChain_map]
  refine h.2.imp fun first second hconstant => ?_
  obtain hfirst | hsecond := hconstant
  · cases first with
    | text text => cases hfirst
    | hole hole => exact .inl rfl
  · cases second with
    | text text => cases hsecond
    | hole hole => exact .inr rfl

/-- The pattern of a link comes from a template, whose parts are apart. -/
theorem apart_of_parseTemplate {source : Str} {template : List LiteralPart}
    (h : parseTemplate source = .ok template)
    (lowerExpr : Expr → MatcherId) : Apart (lowerTemplate lowerExpr template) := by
  obtain ⟨depth, pieces, -, rfl⟩ := TypeExpr.parseTemplate_sound h
  exact apart_lowerTemplate (TypeExpr.apart_collect [] pieces) lowerExpr

theorem SpellsLeftmost.spells {key : Str} (h : SpellsLeftmost parts key) : Spells parts key :=
  spells_iff.mpr (spellsLeftmost_iff.mp h).spelled

/-- A pattern with a hole at its end loses nothing, and a literal alone does not. -/
theorem Spells.leftmost {key : Str} (hapart : Apart parts)
    (hlast : ∀ literal, parts.getLast? = some (.text literal) → parts = [.text literal])
    (h : Spells parts key) : SpellsLeftmost parts key := by
  cases hend : parts.getLast? with
  | none =>
    obtain rfl := List.getLast?_eq_none_iff.mp hend
    exact h
  | some last =>
    cases last with
    | text literal =>
      obtain rfl := hlast literal hend
      obtain ⟨head, rest, rfl, hhead, rfl⟩ := h
      exact ⟨head, [], rfl, hhead, rfl⟩
    | hole matcher =>
      refine spellsLeftmost_iff.mpr ((spells_iff.mp h).left hapart ?_)
      rw [List.getLast?_map, hend]
      rfl

/-- The recognition of a link: it slices between characters, accepts the keys that the leftmost
assignment spells, and thereby every key of the pattern where that ends in a hole or is a literal
alone. -/
theorem templateKeyScan_link {source : Str} {template : List LiteralPart}
    (h : parseTemplate source = .ok template) (lowerExpr : Expr → MatcherId) (key : Str) :
    (∃ accepted, templateKeyScan (lowerTemplate lowerExpr template) key = some accepted ∧
      (accepted = true ↔ SpellsLeftmost (lowerTemplate lowerExpr template) key)) ∧
      (SpellsLeftmost (lowerTemplate lowerExpr template) key →
        Spells (lowerTemplate lowerExpr template) key) ∧
      ((∀ literal, (lowerTemplate lowerExpr template).getLast? = some (.text literal) →
        lowerTemplate lowerExpr template = [.text literal]) →
          Spells (lowerTemplate lowerExpr template) key →
          SpellsLeftmost (lowerTemplate lowerExpr template) key) := by
  have hapart := apart_of_parseTemplate h lowerExpr
  exact ⟨⟨_, templateKeyScan_eq _ _, templateKeyMatches_iff hapart key⟩, SpellsLeftmost.spells,
    Spells.leftmost hapart⟩

theorem exists_parseTemplate {source : Str} {lowered : List PatternPart}
    (h : (parseTemplate source).toOption.map (lowerTemplate fun _ => 0) = some lowered) :
    ∃ template, parseTemplate source = .ok template ∧
    lowerTemplate (fun _ => 0) template = lowered := by
  cases hparse : parseTemplate source with
  | error error =>
    rw [hparse] at h
    cases h
  | ok template =>
    rw [hparse] at h
    exact ⟨template, rfl, Option.some.inj h⟩

/-- A link with a saved event target is recognised. -/
theorem templateKeyScan_event_target :
    ∃ template, parseTemplate "event_target:\x7bscalar\x7d".toList = .ok template ∧
      templateKeyScan (lowerTemplate (fun _ => 0) template) "Event_Target:é".toList =
        some true := by
  obtain ⟨template, hparse, hlowered⟩ : ∃ template,
    parseTemplate "event_target:\x7bscalar\x7d".toList = .ok template ∧
      lowerTemplate (fun _ => 0) template = [.text "event_target:".toList, .hole 0] :=
    exists_parseTemplate (by decide +kernel)
  obtain ⟨⟨accepted, hscan, haccepted⟩, -, hleftmost⟩ :=
    templateKeyScan_link hparse (fun _ => 0) "Event_Target:é".toList
  refine ⟨template, hparse, ?_⟩
  rw [hscan, haccepted.mpr]
  rw [hlowered] at hleftmost ⊢
  refine hleftmost (fun literal hliteral => nomatch hliteral) ?_
  exact ⟨"Event_Target:".toList, "é".toList, rfl, by decide, "é".toList, [], rfl, rfl⟩

/-- The literal behind a hole is taken at its first place, and no other one is tried. -/
theorem templateKeyScan_loses :
    ¬ ∀ (source : Str) (template : List LiteralPart) (lowerExpr : Expr → MatcherId) (key : Str),
      parseTemplate source = .ok template →
        (templateKeyScan (lowerTemplate lowerExpr template) key = some true ↔
          Spells (lowerTemplate lowerExpr template) key) := by
  intro h
  obtain ⟨template, hparse, hlowered⟩ : ∃ template, parseTemplate "pre_\x7bscalar\x7d_post".toList =
    .ok template ∧
      lowerTemplate (fun _ => 0) template = [.text "pre_".toList, .hole 0, .text "_post".toList] :=
    exists_parseTemplate (by decide +kernel)
  have hkey := h _ template (fun _ => 0) "pre_a_post_post".toList hparse
  rw [hlowered] at hkey
  have hspells : Spells [.text "pre_".toList, .hole 0, .text "_post".toList]
    "pre_a_post_post".toList :=
    ⟨"pre_".toList, _, rfl, by decide, "a_post".toList, _, rfl, "_post".toList, [],
      rfl, by decide, rfl⟩
  have hscan : templateKeyScan [.text "pre_".toList, .hole 0, .text "_post".toList]
    "pre_a_post_post".toList =
      some false := by decide +kernel
  rw [hscan] at hkey
  cases hkey.mpr hspells

end ParadoxCode.Hir
