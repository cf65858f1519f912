import Mathlib.Data.List.Chain
import ParadoxCode.Lib.Substrings

/-!
# Words with gaps

A pattern of words and gaps spells the texts that have the words in order, with anything in the
gaps. The leftmost spelling ends every gap at the first place of the word behind it, which leaves no
choice (`SpelledLeft`). It is a spelling (`SpelledLeft.spelled`), and where the pattern ends in a
gap every text that is spelled is spelled leftmost (`Spelled.left`).
-/

namespace Gaps

open Substrings

variable {α : Type*}

inductive Part (α : Type*) where
  | word (word : List α)
  | gap

def Part.isGap : Part α → Bool
  | word _ => false
  | gap => true

/-- The texts of a pattern. -/
def Spelled : List (Part α) → List α → Prop
  | [], text => text = []
  | .word word :: parts, text => ∃ rest, text = word ++ rest ∧ Spelled parts rest
  | .gap :: parts, text => ∃ taken rest, text = taken ++ rest ∧ Spelled parts rest

variable [DecidableEq α]

/-- The texts of a pattern whose gaps end as early as they can. -/
def SpelledLeft : List (Part α) → List α → Prop
  | [], text => text = []
  | .word word :: parts, text => ∃ rest, text = word ++ rest ∧ SpelledLeft parts rest
  | [.gap], _ => True
  | .gap :: .gap :: parts, text => SpelledLeft (.gap :: parts) text
  | .gap :: .word word :: parts, text =>
    ∃ i, find word text = some i ∧ SpelledLeft parts (text.drop (i + word.length))

omit [DecidableEq α] in
theorem spelled_gap (text : List α) : Spelled [.gap] text :=
  ⟨text, [], (List.append_nil _).symm, rfl⟩

variable {parts : List (Part α)}

omit [DecidableEq α] in
/-- A gap takes more in front of what it takes. -/
theorem Spelled.skip {rest : List α} (h : Spelled (.gap :: parts) rest)
    (skipped : List α) : Spelled (.gap :: parts) (skipped ++ rest) := by
  obtain ⟨taken, rest, rfl, h⟩ := h
  exact ⟨skipped ++ taken, rest, (List.append_assoc _ _ _).symm, h⟩

theorem SpelledLeft.spelled {text : List α} (h : SpelledLeft parts text) : Spelled parts text := by
  induction parts, text using SpelledLeft.induct with
  | case1 text => exact h
  | case2 word parts text ih =>
    obtain ⟨rest, rfl, h⟩ := h
    exact ⟨rest, rfl, ih rest h⟩
  | case3 text => exact spelled_gap text
  | case4 parts text ih =>
    obtain ⟨taken, rest, rfl, hrest⟩ := ih h
    exact ⟨[], _, rfl, taken, rest, rfl, hrest⟩
  | case5 word parts text ih =>
    obtain ⟨i, hfind, h⟩ := h
    obtain ⟨front, back, rfl, rfl⟩ := occursAt_iff.mp (find_eq_some_iff.mp hfind).1
    refine ⟨front, word ++ back, rfl, back, rfl, ?_⟩
    have hdrop : (front ++ (word ++ back)).drop (front.length + word.length) = back := by
      rw [← List.drop_drop, List.drop_left, List.drop_left]
    rw [← hdrop]
    exact ih front.length h

/-- No two words stand next to each other. -/
def Apart (parts : List (Part α)) : Prop :=
  parts.IsChain fun first second => first.isGap = true ∨ second.isGap = true

omit [DecidableEq α] in
theorem Apart.tail {part : Part α} {parts : List (Part α)} (h : Apart (part :: parts)) :
    Apart parts :=
  List.IsChain.tail h

omit [DecidableEq α] in
/-- A gap follows a word, where something does. -/
theorem Apart.gap_of_word {word : List α} {part : Part α}
    (h : Apart (.word word :: part :: parts)) : part = .gap := by
  have hgap : part.isGap = true := (List.isChain_cons_cons.mp h).1.resolve_left Bool.false_ne_true
  cases part with
  | word _ => cases hgap
  | gap => rfl

/-- In a pattern that ends in a gap, every word can be taken at its first place. -/
theorem Spelled.left (hapart : Apart parts) (hlast : parts.getLast? = some .gap)
    {text : List α} (h : Spelled parts text) : SpelledLeft parts text := by
  induction parts, text using SpelledLeft.induct with
  | case1 text => exact h
  | case2 word parts text ih =>
    obtain ⟨rest, rfl, h⟩ := h
    cases parts with
    | nil => cases hlast
    | cons part parts => exact ⟨rest, rfl, ih rest hapart.tail
        (by rwa [List.getLast?_cons_cons] at hlast) h⟩
  | case3 text => trivial
  | case4 parts text ih =>
    refine ih hapart.tail (by rwa [List.getLast?_cons_cons] at hlast) ?_
    obtain ⟨taken, rest, rfl, h⟩ := h
    exact h.skip taken
  | case5 word parts text ih =>
    obtain ⟨taken, rest, rfl, back, rfl, h⟩ := h
    have hocc : OccursAt word (taken ++ (word ++ back)) taken.length :=
      occursAt_iff.mpr ⟨taken, back, rfl, rfl⟩
    cases hfind : find word (taken ++ (word ++ back)) with
    | none => exact absurd hocc (find_eq_none_iff.mp hfind _)
    | some i =>
      obtain ⟨hfound, hfirst⟩ := find_eq_some_iff.mp hfind
      have hle : i ≤ taken.length := Nat.not_lt.mp fun hlt => hfirst _ hlt hocc
      refine ⟨i, hfind, ?_⟩
      match parts with
      | [] => cases hlast
      | part :: parts =>
        obtain rfl := hapart.tail.gap_of_word
        -- the gap behind the word takes what the earlier place leaves over
        refine ih i hapart.tail.tail (by simpa using hlast) ?_
        have hdrop : (taken ++ (word ++ back)).drop (i + word.length) =
            ((taken ++ word).drop (i + word.length)) ++ back := by
          rw [← List.append_assoc, List.drop_append_of_le_length]
          rw [List.length_append]
          omega
        rw [hdrop]
        exact h.skip _

end Gaps
