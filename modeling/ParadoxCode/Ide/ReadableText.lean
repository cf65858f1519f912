import ParadoxCode.Ide.LocalisationFile
import ParadoxCode.Transcode.Localisation

/-!
# Readable texts

`decode_value` reads a text one segment after the other: a character, an escape triple, or a triple
that the end of the text cuts short. `readable_localisation` then drops display controls and reads
newline escapes. A text may be cut where no triple and no pair of characters is torn apart
(`Severs`); its readable form is cut there too.
-/

namespace ParadoxCode.Ide.LocalisationSearch

open ParadoxCode.Index (decodeValue)
open Transcode

/-- A marker of an escape triple. -/
def isMarker (c : Char) : Bool := isMarkerCodePoint c.toNat

/-! ## Segments -/

theorem decodeTextFrom_text (text : Str) (i j : Nat) : (decodeTextFrom text i).text =
    (decodeTextFrom text j).text := by
  induction text, i using decodeTextFrom.induct generalizing j with
  | case1 i => rfl
  | case2 c low high tail i hmarker ih =>
    rw [decodeTextFrom, decodeTextFrom, if_pos hmarker, if_pos hmarker]
    exact congrArg (List.cons _) (ih _)
  | case3 c low high tail i hmarker ih =>
    rw [decodeTextFrom, decodeTextFrom, if_neg hmarker, if_neg hmarker]
    exact congrArg (List.cons c) (ih _)
  | case4 c rest i hshort ih =>
    rw [decodeTextFrom.eq_3 _ _ _ hshort, decodeTextFrom.eq_3 _ _ _ hshort]
    exact congrArg (List.cons c) (ih _)

theorem decodeText_of_plain (text : Str) : (∀ c ∈ text, isMarker c = false) →
    ∀ i, (decodeTextFrom text i).text = text := by
  induction text with
  | nil => exact fun _ _ => rfl
  | cons c text ih =>
    intro h i
    rw [List.forall_mem_cons] at h
    rw [decodeTextFrom_char h.1]
    exact congrArg (List.cons c) (ih h.2 _)

theorem decodeValue_eq (text : Str) : decodeValue text = (decodeTextFrom text 0).text := by
  unfold decodeValue
  by_cases hmarker : (text.any fun c => isMarkerCodePoint c.toNat) = true
  · rw [if_pos hmarker]
    rfl
  · rw [if_neg hmarker, decodeText_of_plain]
    rw [List.any_eq_true] at hmarker
    exact fun c hc => Bool.eq_false_iff.mpr fun h => hmarker ⟨c, hc, h⟩

/-- A character, or an escape triple. -/
inductive Whole : Str → Prop where
  | character {c : Char} (h : isMarker c = false) : Whole [c]
  | triple {c low high : Char} (h : isMarker c = true) : Whole [c, low, high]

/-- A marker with less than two characters behind it. -/
def Short (text : Str) : Prop := ∃ c rest, text = c :: rest ∧ isMarker c = true ∧ rest.length < 2

/-- Induction on the segments of a text. -/
theorem segment_induction {P : Str → Prop} (nil : P []) (short : ∀ text, Short text → P text)
    (whole : ∀ segment rest, Whole segment → P rest → P (segment ++ rest)) : ∀ text, P text
  | [] => nil
  | [c] =>
    match h : isMarker c with
    | true => short [c] ⟨c, [], rfl, h, by decide⟩
    | false => whole [c] [] (.character h) nil
  | [c, d] =>
    match h : isMarker c with
    | true => short [c, d] ⟨c, [d], rfl, h, Nat.lt_succ_self 1⟩
    | false => whole [c] [d] (.character h) (segment_induction nil short whole [d])
  | c :: low :: high :: tail =>
    match h : isMarker c with
    | true => whole [c, low, high] tail (.triple h) (segment_induction nil short whole tail)
    | false => whole [c] (low :: high :: tail) (.character h)
        (segment_induction nil short whole (low :: high :: tail))

theorem decodeValue_nil : decodeValue [] = [] := rfl

theorem decodeValue_character {c : Char} (h : isMarker c = false) (rest : Str) :
    decodeValue (c :: rest) = c :: decodeValue rest := by
  rw [decodeValue_eq, decodeValue_eq, decodeTextFrom_char h]
  exact congrArg (List.cons c) (decodeTextFrom_text _ _ _)

/-- The character that a triple is read as. -/
def tripleCharacter (c low high : Char) : Char :=
  pushChar (reconstruct c.toNat (charToByte low.toNat) (charToByte high.toNat))

theorem decodeValue_triple {c : Char} (h : isMarker c = true) (low high : Char) (rest : Str) :
    decodeValue (c :: low :: high :: rest) = tripleCharacter c low high :: decodeValue rest := by
  have hmarker : isMarkerCodePoint c.toNat = true := h
  rw [decodeValue_eq, decodeValue_eq, decodeTextFrom, if_pos hmarker]
  exact congrArg (List.cons _) (decodeTextFrom_text _ _ _)

theorem Short.decodeValue {text : Str} (h : Short text) : decodeValue text = text := by
  obtain ⟨c, rest, rfl, -, hrest⟩ := h
  rw [decodeValue_eq]
  match rest with
  | [] => rfl
  | [d] => rfl
  | d :: e :: rest => exact absurd hrest (by simp)

/-- A segment is read as one character, whatever comes behind it. -/
theorem Whole.decodeValue {segment : Str} (h : Whole segment) :
    ∃ c, decodeValue segment = [c] ∧ ∀ rest, decodeValue (segment ++ rest) =
      c :: decodeValue rest := by
  cases h with
  | character h => exact ⟨_, decodeValue_character h [], fun rest => decodeValue_character h rest⟩
  | triple h => exact ⟨_, decodeValue_triple h _ _ [], fun rest => decodeValue_triple h _ _ rest⟩

/-- Nothing behind a text is read with it. -/
def Complete (front : Str) : Prop := ∀ rest, decodeValue (front ++ rest) =
    decodeValue front ++ decodeValue rest

theorem Complete.nil : Complete [] := fun _ => rfl

theorem Complete.append {front front' : Str} (h : Complete front) (h' : Complete front') :
    Complete (front ++ front') :=
  fun rest => by rw [List.append_assoc, h, h', h, List.append_assoc]

theorem Whole.complete {segment : Str} (h : Whole segment) : Complete segment := fun rest => by
  obtain ⟨c, hsegment, hrest⟩ := h.decodeValue
  rw [hsegment, hrest]
  rfl

/-- The first character of a front of a text is read as in the text, or it is a marker. -/
theorem mem_head_decodeValue {front : Str} (back : Str) {c : Char}
    (h : c ∈ (decodeValue front).head?) :
    c ∈ (decodeValue (front ++ back)).head? ∨ isMarker c = true := by
  induction front using segment_induction with
  | nil => exact absurd h (by simp [decodeValue_nil])
  | short text hshort =>
    obtain ⟨d, rest, rfl, hmarker, -⟩ := id hshort
    rw [hshort.decodeValue] at h
    obtain rfl : d = c := Option.some.inj h
    exact .inr hmarker
  | whole segment rest hwhole =>
    obtain ⟨d, -, hrest⟩ := hwhole.decodeValue
    rw [hrest] at h
    rw [List.append_assoc, hrest]
    exact .inl h

/-! ## Pairs -/

/-- A display control or a newline escape. -/
def Pair (a b : Char) : Prop := a = '§' ∧ (b.isAlphanum ∨ b = '!') ∨ a = '\\' ∧ b = 'n'

/-- No pair stands across two texts. -/
def Apart (front back : Str) : Prop := ∀ a ∈ front.getLast?, ∀ b ∈ back.head?, ¬ Pair a b

theorem Apart.tail {c : Char} {front back : Str} (h : Apart (c :: front) back) :
    Apart front back := by
  cases front with
  | nil => exact fun a ha => absurd ha (by simp)
  | cons d front => exact h

theorem not_pair_marker {a b : Char} (h : isMarker b = true) : ¬ Pair a b := by
  have hcode : b.toNat ≤ 0x13 := by
    unfold isMarker isMarkerCodePoint at h
    simp only [Bool.and_eq_true, decide_eq_true_eq] at h
    exact h.2
  have hletter : ¬ b.isAlphanum = true := by
    delta Char.isAlphanum Char.isAlpha Char.isUpper Char.isLower Char.isDigit
    simp only [Bool.or_eq_true, Bool.and_eq_true, decide_eq_true_eq, ge_iff_le,
      UInt32.le_iff_toNat_le]
    change ¬ (((65 ≤ b.toNat ∧ b.toNat ≤ 90) ∨ (97 ≤ b.toNat ∧ b.toNat ≤ 122)) ∨
      (48 ≤ b.toNat ∧ b.toNat ≤ 57))
    omega
  rintro (⟨-, hnext | rfl⟩ | ⟨-, rfl⟩)
  · exact hletter hnext
  · exact absurd hcode (by decide)
  · exact absurd hcode (by decide)

theorem readableLocalisation_append {front back : Str} (h : Apart front back) :
    readableLocalisation (front ++ back) = readableLocalisation front ++
      readableLocalisation back := by
  induction front using readableLocalisation.induct with
  | case1 => rfl
  | case2 c =>
    cases back with
    | nil => rfl
    | cons d back =>
      have hpair : ¬ Pair c d := h c rfl d rfl
      change readableLocalisation (c :: d :: back) = c :: readableLocalisation (d :: back)
      rw [readableLocalisation, if_neg fun hc => hpair (.inl hc), if_neg fun hb => hpair (.inr hb)]
  | case3 c next rest hcontrol ih =>
    rw [List.cons_append, List.cons_append, readableLocalisation, if_pos hcontrol, ih h.tail.tail,
      readableLocalisation, if_pos hcontrol]
  | case4 c next rest hcontrol hbreak ih =>
    rw [List.cons_append, List.cons_append, readableLocalisation, if_neg hcontrol, if_pos hbreak,
      ih h.tail.tail, readableLocalisation, if_neg hcontrol, if_pos hbreak]
    rfl
  | case5 c next rest hcontrol hbreak ih =>
    rw [List.cons_append, List.cons_append, readableLocalisation, if_neg hcontrol, if_neg hbreak,
      ← List.cons_append, ih h.tail, readableLocalisation, if_neg hcontrol, if_neg hbreak]
    rfl

/-! ## Cuts -/

/-- The readable form of a text. -/
def readableText (text : Str) : Str := readableLocalisation (decodeValue text)

/-- A text may be cut here. -/
structure Severs (front back : Str) : Prop where
  complete : Complete front
  apart : Apart (decodeValue front) (decodeValue back)

/-- The readable form of a front of the text is cut where the text is. -/
theorem Severs.readableText {front middle back : Str} (h : Severs front (middle ++ back)) :
    readableText (front ++ middle) = readableText front ++ readableText middle := by
  have hapart : Apart (decodeValue front) (decodeValue middle) := fun a ha b hb => by
    obtain hhead | hmarker := mem_head_decodeValue back hb
    · exact h.apart a ha b hhead
    · exact not_pair_marker hmarker
  unfold LocalisationSearch.readableText
  rw [h.complete, readableLocalisation_append hapart]

/-! ## Texts that are shown as they are spelled -/

/-- No escape triple, no display control and no newline escape is in a text. -/
structure Plain (text : Str) : Prop where
  triples : ∀ front c low high back, text = front ++ c :: low :: high :: back → isMarker c = false
  pairs : ∀ front a b back, text = front ++ a :: b :: back → ¬ Pair a b

theorem Plain.of_part {text part : Str} (h : Plain text) (hpart : part <:+: text) : Plain part := by
  obtain ⟨before, behind, rfl⟩ := hpart
  constructor
  · rintro front c low high back rfl
    exact h.triples (before ++ front) c low high (back ++ behind) (by simp)
  · rintro front a b back rfl
    exact h.pairs (before ++ front) a b (back ++ behind) (by simp)

theorem decodeValue_of_triples {text : Str}
    (h : ∀ front c low high back, text = front ++ c :: low :: high :: back → isMarker c = false) :
    decodeValue text = text := by
  induction text using segment_induction with
  | nil => rfl
  | short text hshort => exact hshort.decodeValue
  | whole segment rest hwhole ih =>
    cases hwhole with
    | @character c hc =>
      change decodeValue (c :: rest) = c :: rest
      rw [decodeValue_character hc, ih fun front d low high back heq =>
        h (c :: front) d low high back (by rw [heq]; rfl)]
    | @triple c low high hc =>
      have hmarker := h [] c low high rest rfl
      rw [hc] at hmarker
      cases hmarker

theorem readableLocalisation_of_pairs {text : Str}
    (h : ∀ front a b back, text = front ++ a :: b :: back → ¬ Pair a b) :
    readableLocalisation text = text := by
  induction text using readableLocalisation.induct with
  | case1 => rfl
  | case2 c => rfl
  | case3 c next rest hcontrol ih => exact absurd (.inl hcontrol) (h [] c next rest rfl)
  | case4 c next rest hcontrol hbreak ih => exact absurd (.inr hbreak) (h [] c next rest rfl)
  | case5 c next rest hcontrol hbreak ih =>
    rw [readableLocalisation, if_neg hcontrol, if_neg hbreak,
      ih fun front a b back heq => h (c :: front) a b back (by rw [heq]; rfl)]

theorem Plain.readableText {text : Str} (h : Plain text) : readableText text = text := by
  unfold LocalisationSearch.readableText
  rw [decodeValue_of_triples h.triples, readableLocalisation_of_pairs h.pairs]

theorem length_decodeValue_le (text : Str) : (decodeValue text).length ≤ text.length := by
  induction text using segment_induction with
  | nil => exact le_rfl
  | short text hshort => rw [hshort.decodeValue]
  | whole segment rest hwhole ih =>
    cases hwhole with
    | @character c hc =>
      change (decodeValue (c :: rest)).length ≤ rest.length + 1
      rw [decodeValue_character hc]
      exact Nat.succ_le_succ ih
    | @triple c low high hc =>
      change (decodeValue (c :: low :: high :: rest)).length ≤ rest.length + 3
      rw [decodeValue_triple hc, List.length_cons]
      omega

/-- A text that is not shortened by decoding has no triple. -/
theorem triples_of_length {text : Str} (h : (decodeValue text).length = text.length) :
    ∀ front c low high back, text = front ++ c :: low :: high :: back → isMarker c = false := by
  induction text using segment_induction with
  | nil => exact fun front c low high back heq => absurd heq (by simp)
  | short text hshort =>
    obtain ⟨d, rest, rfl, -, hrest⟩ := hshort
    intro front c low high back heq
    have hlength := congrArg List.length heq
    simp only [List.length_cons, List.length_append] at hlength
    omega
  | whole segment rest hwhole ih =>
    cases hwhole with
    | @character d hd =>
      change (decodeValue (d :: rest)).length = rest.length + 1 at h
      rw [decodeValue_character hd, List.length_cons] at h
      intro front c low high back heq
      cases front with
      | nil =>
        obtain ⟨rfl, -⟩ := List.cons.inj heq
        exact hd
      | cons e front => exact ih (Nat.succ.inj h) front c low high back (List.cons.inj heq).2
    | @triple d low high hd =>
      change (decodeValue (d :: low :: high :: rest)).length = rest.length + 3 at h
      rw [decodeValue_triple hd, List.length_cons] at h
      have := length_decodeValue_le rest
      omega

theorem length_readableLocalisation_le (text : Str) : (readableLocalisation text).length ≤
    text.length := by
  induction text using readableLocalisation.induct with
  | case1 => exact le_rfl
  | case2 c => exact le_rfl
  | case3 c next rest hcontrol ih =>
    rw [readableLocalisation, if_pos hcontrol, List.length_cons, List.length_cons]
    omega
  | case4 c next rest hcontrol hbreak ih =>
    rw [readableLocalisation, if_neg hcontrol, if_pos hbreak, List.length_cons, List.length_cons,
      List.length_cons]
    omega
  | case5 c next rest hcontrol hbreak ih =>
    rw [readableLocalisation, if_neg hcontrol, if_neg hbreak, List.length_cons, List.length_cons]
    exact Nat.succ_le_succ ih

/-- A text that is not shortened by reading controls and escapes has none. -/
theorem pairs_of_length {text : Str} (h : (readableLocalisation text).length = text.length) :
    ∀ front a b back, text = front ++ a :: b :: back → ¬ Pair a b := by
  induction text using readableLocalisation.induct with
  | case1 => exact fun front a b back heq => absurd heq (by simp)
  | case2 c =>
    intro front a b back heq
    have hlength := congrArg List.length heq
    simp only [List.length_cons, List.length_append, List.length_nil] at hlength
    omega
  | case3 c next rest hcontrol ih =>
    rw [readableLocalisation, if_pos hcontrol, List.length_cons, List.length_cons] at h
    have := length_readableLocalisation_le rest
    omega
  | case4 c next rest hcontrol hbreak ih =>
    rw [readableLocalisation, if_neg hcontrol, if_pos hbreak, List.length_cons, List.length_cons,
      List.length_cons] at h
    have := length_readableLocalisation_le rest
    omega
  | case5 c next rest hcontrol hbreak ih =>
    rw [readableLocalisation, if_neg hcontrol, if_neg hbreak, List.length_cons,
      List.length_cons] at h
    intro front a b back heq
    cases front with
    | nil =>
      obtain ⟨rfl, hrest⟩ := List.cons.inj heq
      obtain ⟨rfl, -⟩ := List.cons.inj hrest
      exact fun hpair => hpair.elim hcontrol hbreak
    | cons d front => exact ih (Nat.succ.inj h) front a b back (List.cons.inj heq).2

/-- A text is shown as it is spelled if there is nothing in it to be read. -/
theorem plain_of_readableText {text : Str} (h : readableText text = text) : Plain text := by
  have hlength := congrArg List.length h
  have hread := length_readableLocalisation_le (decodeValue text)
  have hdecoded := length_decodeValue_le text
  unfold readableText at hlength
  have htriples := triples_of_length (show (decodeValue text).length = text.length by omega)
  rw [decodeValue_of_triples htriples] at hlength
  exact ⟨htriples, pairs_of_length hlength⟩

end ParadoxCode.Ide.LocalisationSearch
