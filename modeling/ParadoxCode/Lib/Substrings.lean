import Mathlib.Data.List.Forall2
import ParadoxCode.Lib.Utf8

/-!
# Finding words in texts

A word occurs at a place of a text, and `find` is the first such place. The places of `disjoint` do
not overlap, and every place of the word is overlapped by one of them. The encoding of a word that
is not empty is found in the encoding of a text exactly where the word is found (`find_encode`): no
character starts inside another one.
-/

namespace Substrings

section Lists

variable {α : Type*} [DecidableEq α] {word text : List α} {i : Nat}

/-- The word stands in the text from a place on. -/
def OccursAt (word text : List α) (i : Nat) : Prop :=
  i + word.length ≤ text.length ∧ (text.drop i).take word.length = word

instance (word text : List α) (i : Nat) : Decidable (OccursAt word text i) :=
  inferInstanceAs (Decidable (_ ∧ _))

/-- The first place of a word. -/
def find (word text : List α) : Option Nat :=
  (List.range (text.length + 1 - word.length)).find? fun i => (text.drop i).take word.length = word

omit [DecidableEq α] in
theorem occursAt_iff : OccursAt word text i ↔ ∃ front back, text = front ++ (word ++ back) ∧
    front.length = i := by
  constructor
  · rintro ⟨hle, hword⟩
    refine ⟨text.take i, text.drop (i + word.length), ?_, List.length_take_of_le (by omega)⟩
    rw [← hword, List.length_take, List.length_drop, Nat.min_eq_left (by omega), ← List.drop_drop,
      List.take_append_drop, List.take_append_drop]
  · rintro ⟨front, back, rfl, rfl⟩
    refine ⟨?_, ?_⟩
    · simp only [List.length_append]
      omega
    · rw [List.drop_left, List.take_left]

theorem find_eq_some_iff :
    find word text = some i ↔ OccursAt word text i ∧ ∀ j < i, ¬ OccursAt word text j := by
  unfold find OccursAt
  rw [List.find?_range_eq_some]
  simp only [decide_eq_true_eq, List.mem_range, Bool.not_eq_true', decide_eq_false_iff_not]
  constructor
  · rintro ⟨hword, hlt, hfirst⟩
    exact ⟨⟨by omega, hword⟩, fun j hj hocc => hfirst j hj hocc.2⟩
  · rintro ⟨⟨hle, hword⟩, hfirst⟩
    exact ⟨hword, by omega, fun j hj hocc => hfirst j hj ⟨by omega, hocc⟩⟩

theorem find_eq_none_iff : find word text = none ↔ ∀ j, ¬ OccursAt word text j := by
  unfold find OccursAt
  rw [List.find?_eq_none]
  simp only [List.mem_range, decide_eq_true_eq]
  exact ⟨fun h j hocc => h j (by omega) hocc.2, fun h j hj hocc => h j ⟨by omega, hocc⟩⟩

/-- A word is found at the front of a text that starts with it. -/
theorem find_append (word back : List α) : find word (word ++ back) = some 0 :=
  find_eq_some_iff.mpr ⟨occursAt_iff.mpr ⟨[], back, rfl, rfl⟩,
    fun j hj => absurd hj (Nat.not_lt_zero j)⟩

omit [DecidableEq α] in
/-- A word that stands inside the middle of a text occurs in it. -/
theorem infix_of_occursAt {front middle back : List α}
    (h : OccursAt word (front ++ (middle ++ back)) i)
    (hfront : front.length ≤ i) (hmiddle : i + word.length ≤ front.length + middle.length) :
    word <:+: middle := by
  obtain ⟨k, rfl⟩ := Nat.exists_eq_add_of_le hfront
  have hword := h.2
  rw [List.drop_append, List.drop_eq_nil_of_le (Nat.le_add_right _ _), List.nil_append,
    Nat.add_sub_cancel_left, List.drop_append_of_le_length (by omega),
    List.take_append_of_le_length (by rw [List.length_drop]; omega)] at hword
  rw [← hword]
  exact (List.take_prefix _ _).isInfix.trans (List.drop_suffix _ _).isInfix

omit [DecidableEq α] in
theorem exists_occursAt_iff : (∃ i, OccursAt word text i) ↔ word <:+: text := by
  constructor
  · rintro ⟨i, hocc⟩
    obtain ⟨front, back, rfl, -⟩ := occursAt_iff.mp hocc
    exact ⟨front, back, List.append_assoc _ _ _⟩
  · rintro ⟨front, back, rfl⟩
    exact ⟨front.length, occursAt_iff.mpr ⟨front, back, List.append_assoc _ _ _, rfl⟩⟩

theorem isSome_find_iff : (find word text).isSome = true ↔ word <:+: text := by
  rw [← exists_occursAt_iff]
  cases hfind : find word text with
  | none => exact iff_of_false Bool.false_ne_true fun ⟨i, hocc⟩ => find_eq_none_iff.mp hfind i hocc
  | some i => exact iff_of_true rfl ⟨i, (find_eq_some_iff.mp hfind).1⟩

/-! ## Disjoint occurrences -/

/-- The places of a word that is not empty, from a position on; what is skipped belongs to a place
before. -/
def disjointFrom (word : List α) : Nat → Nat → List α → List Nat
  | _, _, [] => []
  | position, skip + 1, _ :: text => disjointFrom word (position + 1) skip text
  | position, 0, c :: text =>
    if word <+: c :: text then position :: disjointFrom word (position + 1) (word.length - 1) text
    else disjointFrom word (position + 1) 0 text

/-- The places of a word that do not overlap, each as early as it can be. -/
def disjoint (word text : List α) : List Nat := disjointFrom word 0 0 text

omit [DecidableEq α] in
theorem occursAt_zero : OccursAt word text 0 ↔ word <+: text := by
  rw [occursAt_iff]
  constructor
  · rintro ⟨front, back, rfl, hfront⟩
    obtain rfl := List.length_eq_zero_iff.mp hfront
    exact List.prefix_append _ _
  · rintro ⟨back, rfl⟩
    exact ⟨[], back, rfl, rfl⟩

omit [DecidableEq α] in
theorem occursAt_succ {c : α} : OccursAt word (c :: text) (i + 1) ↔ OccursAt word text i := by
  unfold OccursAt
  rw [List.length_cons, List.drop_succ_cons]
  exact and_congr_left fun _ => by omega

theorem occursAt_of_mem_disjointFrom (text : List α) : ∀ {position skip : Nat},
    i ∈ disjointFrom word position skip text → position ≤ i ∧
    OccursAt word text (i - position) := by
  induction text with
  | nil => exact fun h => absurd h List.not_mem_nil
  | cons c text ih =>
    have hstep : ∀ {position skip : Nat}, i ∈ disjointFrom word (position + 1) skip text →
        position ≤ i ∧ OccursAt word (c :: text) (i - position) := fun {position skip} h => by
      obtain ⟨hle, hocc⟩ := ih h
      refine ⟨by omega, ?_⟩
      rw [show i - position = i - (position + 1) + 1 by omega]
      exact occursAt_succ.mpr hocc
    intro position skip h
    cases skip with
    | succ skip => exact hstep h
    | zero =>
      unfold disjointFrom at h
      split_ifs at h with hword
      · obtain rfl | h := List.mem_cons.mp h
        · rw [Nat.sub_self]
          exact ⟨le_rfl, occursAt_zero.mpr hword⟩
        · exact hstep h
      · exact hstep h

theorem occursAt_of_mem_disjoint (h : i ∈ disjoint word text) : OccursAt word text i :=
  (occursAt_of_mem_disjointFrom text h).2

theorem exists_mem_disjointFrom (hword : word ≠ []) (text : List α) : ∀ position skip : Nat,
    OccursAt word text i → skip ≤ i →
      ∃ j ∈ disjointFrom word position skip text, j ≤ position + i ∧
      position + i < j + word.length := by
  have hpos : 0 < word.length := List.length_pos_iff.mpr hword
  induction text generalizing i with
  | nil =>
    intro position skip hocc _
    have hle : i + word.length ≤ 0 := hocc.1
    omega
  | cons c text ih =>
    intro position skip hocc hskip
    -- a place behind the first one is a place in the rest
    have hlater : ∀ skip', 0 < i → skip' + 1 ≤ i →
        ∃ j ∈ disjointFrom word (position + 1) skip' text, j ≤ position + i ∧
        position + i < j + word.length := by
      intro skip' hi hle
      obtain ⟨i, rfl⟩ := Nat.exists_eq_add_one.mpr hi
      obtain ⟨j, hj, hle, hlt⟩ := ih (position + 1) skip' (occursAt_succ.mp hocc)
        (Nat.le_of_succ_le_succ hle)
      exact ⟨j, hj, by omega, by omega⟩
    cases skip with
    | succ skip => exact hlater skip (by omega) hskip
    | zero =>
      unfold disjointFrom
      split_ifs with hfront
      · by_cases hi : i < word.length
        · exact ⟨position, List.mem_cons_self, by omega, by omega⟩
        · obtain ⟨j, hj, h⟩ := hlater (word.length - 1) (by omega) (by omega)
          exact ⟨j, List.mem_cons_of_mem _ hj, h⟩
      · have hi : 0 < i := Nat.pos_of_ne_zero fun hzero => hfront (occursAt_zero.mp (hzero ▸ hocc))
        exact hlater 0 hi hi

/-- Every place of a word is overlapped by one of the disjoint places. -/
theorem exists_mem_disjoint (hword : word ≠ []) (h : OccursAt word text i) :
    ∃ j ∈ disjoint word text, j ≤ i ∧ i < j + word.length := by
  obtain ⟨j, hj, hle, hlt⟩ := exists_mem_disjointFrom hword text 0 0 h (Nat.zero_le i)
  exact ⟨j, hj, by omega, by omega⟩

theorem disjoint_eq_nil (h : ∀ i, ¬ OccursAt word text i) : disjoint word text = [] :=
  List.eq_nil_iff_forall_not_mem.mpr fun i hi => h i (occursAt_of_mem_disjoint hi)

end Lists

/-! ## Encodings -/

open Utf8

/-- Bytes behind an encoding are bytes behind characters. -/
theorem exists_of_encode_eq_append {word : List Char} : ∀ {text : List Char} {rest : List UInt8},
    encode text = encode word ++ rest → ∃ back, text = word ++ back ∧ encode back = rest := by
  induction word with
  | nil => exact fun h => ⟨_, rfl, h⟩
  | cons c word ih =>
    intro text rest h
    rw [encode_cons, List.append_assoc] at h
    obtain ⟨back, rfl, hback⟩ := exists_of_encode_eq h.symm
    obtain ⟨back', rfl, hrest⟩ := ih hback.symm
    exact ⟨back', rfl, hrest⟩

/-- An encoding is cut between characters where no continuation byte follows. -/
theorem exists_of_splits {text : List Char} : ∀ {front back : List UInt8},
    encode text = front ++ back →
    Splits back → ∃ before after, text = before ++ after ∧ encode before = front ∧
    encode after = back := by
  induction text with
  | nil =>
    intro front back h _
    obtain ⟨rfl, rfl⟩ := List.append_eq_nil_iff.mp h.symm
    exact ⟨[], [], rfl, rfl, rfl⟩
  | cons c text ih =>
    intro front back h hback
    rw [encode_cons] at h
    obtain ⟨front', rfl, hrest⟩ | ⟨middle, hc, rfl⟩ := List.append_eq_append_iff.mp h
    · obtain ⟨before, after, rfl, rfl, rfl⟩ := ih hrest hback
      exact ⟨c :: before, after, rfl, rfl, rfl⟩
    · obtain ⟨b, tail, hbytes, -, hcontinues, -⟩ := encodeChar_cons c
      rw [hbytes] at hc
      cases front with
      | nil => exact ⟨[], c :: text, rfl, rfl, by rw [encode_cons, hbytes, hc]; rfl⟩
      | cons first front =>
        cases middle with
        | nil =>
          refine ⟨[c], text, rfl, ?_, rfl⟩
          rw [encode_cons, encode_nil, List.append_nil, hbytes, hc, List.append_nil]
        | cons next middle =>
          -- the next byte is in the middle of the character
          obtain ⟨-, rfl⟩ := List.cons.inj hc
          have hnext : isContinuation next = true := hcontinues next (by simp)
          rw [hback next rfl] at hnext
          cases hnext

theorem splits_encode_append {word : List Char} (h : word ≠ []) (rest : List UInt8) :
    Splits (encode word ++ rest) := by
  obtain ⟨c, word, rfl⟩ := List.exists_cons_of_ne_nil h
  rw [encode_cons, List.append_assoc]
  exact splits_encodeChar c _

/-- An encoded word occurs where the word occurs. -/
theorem occursAt_encode {word text : List Char} (hword : word ≠ []) {i : Nat} :
    OccursAt (encode word) (encode text) i ↔
      ∃ j, OccursAt word text j ∧ (encode (text.take j)).length = i := by
  rw [occursAt_iff]
  constructor
  · rintro ⟨front, back, h, rfl⟩
    obtain ⟨before, after, rfl, rfl, hafter⟩ := exists_of_splits h (splits_encode_append hword back)
    obtain ⟨rest, rfl, -⟩ := exists_of_encode_eq_append hafter
    refine ⟨before.length, occursAt_iff.mpr ⟨before, rest, rfl, rfl⟩, ?_⟩
    rw [List.take_left]
  · rintro ⟨j, hocc, rfl⟩
    obtain ⟨before, after, rfl, rfl⟩ := occursAt_iff.mp hocc
    rw [List.take_left]
    exact ⟨encode before, encode after, by rw [encode_append, encode_append], rfl⟩

/-- The encoding of a word is found where the word is found. -/
theorem find_encode {word text : List Char} (hword : word ≠ []) :
    find (encode word) (encode text) = (find word text).map fun i =>
      (encode (text.take i)).length := by
  cases hfind : find word text with
  | none =>
    rw [find_eq_none_iff] at hfind
    rw [Option.map_none, find_eq_none_iff]
    intro i hocc
    obtain ⟨j, hocc, -⟩ := (occursAt_encode hword).mp hocc
    exact hfind j hocc
  | some i =>
    obtain ⟨hocc, hfirst⟩ := find_eq_some_iff.mp hfind
    rw [Option.map_some, find_eq_some_iff]
    refine ⟨(occursAt_encode hword).mpr ⟨i, hocc, rfl⟩, fun k hk hocck => ?_⟩
    obtain ⟨j, hoccj, rfl⟩ := (occursAt_encode hword).mp hocck
    refine hfirst j (Nat.not_le.mp fun hij => ?_) hoccj
    have hle : (encode (text.take i)).length ≤ (encode (text.take j)).length := by
      rw [← List.take_append_drop i (text.take j), List.take_take, Nat.min_eq_left hij,
        encode_append, List.length_append]
      exact Nat.le_add_right _ _
    omega

end Substrings
