import Mathlib.Data.List.Forall2

/-!
# Small letters

What Unicode says about the case of characters is a parameter: the small letters of a character,
which characters have case, and which are ignored about them. A text is folded character by
character (`lowerEach`), or as a whole (`toLowercase`), where a capital sigma at the end of a word
has another small letter. The two agree exactly on the texts without such a sigma
(`toLowercase_eq_iff`).
-/

/-- The case of characters. -/
structure CaseTable where
  lower : Char → List Char
  cased : Char → Bool
  caseIgnorable : Char → Bool
  lower_ne_nil : ∀ c, lower c ≠ []
  lower_ascii : ∀ c : Char, c.toNat < 0x80 → lower c = [c.toLower]
  lower_sigma : lower 'Σ' = ['σ']
  lower_lower : ∀ c, ∀ d ∈ lower c, lower d = [d]

namespace CaseTable

variable (table : CaseTable)

/-- A cased character is next, behind characters that are ignored. -/
def nextCased (text : List Char) : Bool :=
  (text.dropWhile table.caseIgnorable).head?.any table.cased

/-- `Final_Sigma`: a cased character stands before and none stands behind. -/
def endsWord (before after : List Char) : Bool := table.nextCased before.reverse &&
    !table.nextCased after

/-- The small letters of a character between others. -/
def lowerAt (before : List Char) (c : Char) (after : List Char) : List Char :=
  if c = 'Σ' then [if table.endsWord before after = true then 'ς' else 'σ'] else table.lower c

def lowerFrom (before : List Char) : List Char → List Char
  | [] => []
  | c :: rest => table.lowerAt before c rest ++ lowerFrom (before ++ [c]) rest

/-- `str::to_lowercase`. -/
def toLowercase (text : List Char) : List Char := table.lowerFrom [] text

/-- `char::to_lowercase` of each character. -/
def lowerEach (text : List Char) : List Char := text.flatMap table.lower

/-- A capital sigma ends a word. -/
def HasFinalSigma (text : List Char) : Prop :=
  ∃ before after, text = before ++ 'Σ' :: after ∧ table.endsWord before after = true

variable {table}

theorem length_lowerAt (before : List Char) (c : Char) (after : List Char) :
    (table.lowerAt before c after).length = (table.lower c).length := by
  unfold lowerAt
  by_cases hc : c = 'Σ'
  · rw [if_pos hc, hc, table.lower_sigma]
    rfl
  · rw [if_neg hc]

theorem lowerAt_eq_iff {before : List Char} {c : Char} {after : List Char} :
    table.lowerAt before c after = table.lower c ↔
    (c = 'Σ' → table.endsWord before after = false) := by
  unfold lowerAt
  by_cases hc : c = 'Σ'
  · rw [if_pos hc, hc, table.lower_sigma]
    cases table.endsWord before after <;> simp
  · rw [if_neg hc]
    exact iff_of_true rfl fun h => absurd h hc

theorem length_lowerFrom (text : List Char) : ∀ before,
    (table.lowerFrom before text).length = (table.lowerEach text).length := by
  induction text with
  | nil => exact fun _ => rfl
  | cons c text ih =>
    intro before
    have hrest := ih (before ++ [c])
    unfold lowerEach at *
    rw [lowerFrom, List.length_append, length_lowerAt, hrest, List.flatMap_cons, List.length_append]

theorem length_toLowercase (text : List Char) :
    (table.toLowercase text).length = (table.lowerEach text).length := length_lowerFrom text []

variable {text : List Char}

theorem lowerFrom_eq_iff : ∀ {before}, table.lowerFrom before text = table.lowerEach text ↔
    ∀ front after, text = front ++ 'Σ' :: after →
    table.endsWord (before ++ front) after = false := by
  induction text with
  | nil => exact fun {_} => iff_of_true rfl fun front after h => by simp at h
  | cons c text ih =>
    intro before
    have hcons : table.lowerEach (c :: text) = table.lower c ++ table.lowerEach text :=
      List.flatMap_cons
    rw [lowerFrom, hcons]
    constructor
    · intro h front after hsplit
      obtain ⟨hhead, hrest⟩ := List.append_inj h (length_lowerAt before c text)
      cases front with
      | nil =>
        obtain ⟨hc, rfl⟩ := List.cons.inj hsplit
        rw [List.append_nil]
        exact lowerAt_eq_iff.mp hhead hc
      | cons d front =>
        obtain ⟨rfl, htext⟩ := List.cons.inj hsplit
        have hword := ih.mp hrest front after htext
        rwa [List.append_assoc] at hword
    · intro h
      have hhead : table.lowerAt before c text = table.lower c := lowerAt_eq_iff.mpr fun hc => by
        have hword := h [] text (by rw [hc]; rfl)
        rwa [List.append_nil] at hword
      have hrest : table.lowerFrom (before ++ [c]) text = table.lowerEach text :=
        ih.mpr fun front after hsplit => by
        have hword := h (c :: front) after (by rw [hsplit]; rfl)
        rwa [List.append_assoc]
      rw [hhead, hrest]

/-- Folding a text as a whole differs from folding its characters at a final sigma only. -/
theorem toLowercase_eq_iff :
    table.toLowercase text = table.lowerEach text ↔ ¬ table.HasFinalSigma text := by
  unfold toLowercase
  rw [lowerFrom_eq_iff]
  unfold HasFinalSigma
  simp only [List.nil_append, not_exists, not_and, Bool.not_eq_true]

theorem mem_lowerFrom {front after : List Char} : ∀ {before},
    table.endsWord (before ++ front) after = true →
      'ς' ∈ table.lowerFrom before (front ++ 'Σ' :: after) := by
  induction front with
  | nil =>
    intro before hword
    rw [List.append_nil] at hword
    rw [List.nil_append, lowerFrom, lowerAt, if_pos rfl, if_pos hword]
    exact List.mem_append_left _ (List.mem_singleton_self _)
  | cons c front ih =>
    intro before hword
    rw [List.cons_append, lowerFrom]
    refine List.mem_append_right _ (ih ?_)
    rwa [List.append_assoc]

/-- A text with a final sigma is folded to one. -/
theorem HasFinalSigma.mem_toLowercase (h : table.HasFinalSigma text) :
    'ς' ∈ table.toLowercase text := by
  obtain ⟨before, after, rfl, hword⟩ := h
  exact mem_lowerFrom hword

/-- Only final sigmas are folded differently. -/
theorem forall₂_lowerFrom (text : List Char) : ∀ before,
    List.Forall₂ (fun a b => a = b ∨ a = 'ς') (table.lowerFrom before text)
      (table.lowerEach text) := by
  induction text with
  | nil => exact fun _ => .nil
  | cons c text ih =>
    intro before
    have hcons : table.lowerEach (c :: text) = table.lower c ++ table.lowerEach text :=
      List.flatMap_cons
    rw [lowerFrom, hcons]
    refine List.rel_append ?_ (ih _)
    unfold lowerAt
    by_cases hc : c = 'Σ'
    · rw [if_pos hc, hc, table.lower_sigma]
      refine .cons ?_ .nil
      cases table.endsWord before text with
      | true => exact .inr rfl
      | false => exact .inl rfl
    · rw [if_neg hc]
      exact List.forall₂_same.mpr fun a _ => .inl rfl

theorem forall₂_toLowercase (text : List Char) :
    List.Forall₂ (fun a b => a = b ∨ a = 'ς') (table.toLowercase text) (table.lowerEach text) :=
  forall₂_lowerFrom text []

theorem lowerEach_ne_nil (h : text ≠ []) : table.lowerEach text ≠ [] := by
  obtain ⟨c, text, rfl⟩ := List.exists_cons_of_ne_nil h
  unfold lowerEach
  rw [List.flatMap_cons]
  exact List.append_ne_nil_of_left_ne_nil (table.lower_ne_nil c) _

theorem toLowercase_ne_nil (h : text ≠ []) : table.toLowercase text ≠ [] := by
  intro hnil
  have hlength : (table.toLowercase text).length = (table.lowerEach text).length :=
    length_toLowercase text
  rw [hnil, List.length_nil] at hlength
  exact lowerEach_ne_nil h (List.length_eq_zero_iff.mp hlength.symm)

/-- ASCII texts are folded as such. -/
theorem lowerEach_ascii (h : ∀ c ∈ text, c.toNat < 0x80) :
    table.lowerEach text = text.map Char.toLower := by
  unfold lowerEach
  rw [List.map_eq_flatMap]
  exact List.flatMap_congr fun c hc => table.lower_ascii c (h c hc)

/-- ASCII characters of a folded text are small ones. -/
theorem toLower_of_mem_toLowercase {c : Char} (h : c ∈ table.toLowercase text)
    (hc : c.toNat < 0x80) : c.toLower = c := by
  obtain ⟨k, hk, rfl⟩ := List.getElem_of_mem h
  obtain ⟨hlength, hagree⟩ := List.forall₂_iff_get.mp (@forall₂_toLowercase table text)
  obtain heq | hsigma := hagree k hk (hlength ▸ hk)
  · have hmem : (table.toLowercase text)[k] ∈ table.lowerEach text := List.mem_of_getElem heq.symm
    obtain ⟨d, -, hd⟩ := List.mem_flatMap.mp hmem
    exact List.singleton_inj.mp ((table.lower_ascii _ hc).symm.trans (table.lower_lower d _ hd))
  · have hcode : ((table.toLowercase text)[k]).toNat = 'ς'.toNat := congrArg Char.toNat hsigma
    rw [hcode] at hc
    exact absurd hc (by decide)

end CaseTable
