import Mathlib.Data.List.DropRight

/-!
# Scanning

Parsers over what is left of a text, which may pass over blank characters between tokens. A failure
says where it stands.

1. Sequences of parsers.
2. Blank characters: how many there are in front does not count, neither in what a parser is given
nor in what it leaves (`Reads`).
3. Wherever a parser stops, it stands in the text (`Within`).
-/

namespace Scanning

variable {M α β : Type}

/-- The text from the failure on, and what is wrong there. -/
structure Failure (M : Type) where
  rest : List Char
  message : M

abbrev Parser (M α : Type) := StateT (List Char) (Except (Failure M)) α

/-! ## Sequences -/

def peek : Parser M (Option Char) := fun text => .ok (text.head?, text)

def bump : Parser M Unit := fun text => .ok ((), text.tail)

/-- A failure at a place that has been passed. -/
def failAt (rest : List Char) (message : M) : Parser M α := fun _ => .error ⟨rest, message⟩

/-- A failure here. -/
def fail (message : M) : Parser M α := fun text => .error ⟨text, message⟩

@[simp]
theorem pure_apply (a : α) (text : List Char) : (pure a : Parser M α) text = .ok (a, text) := rfl

@[simp]
theorem get_bind (f : List Char → Parser M β) (text : List Char) :
    (get >>= f) text = f text text := rfl

@[simp]
theorem peek_bind (f : Option Char → Parser M β) (text : List Char) :
    (peek >>= f) text = f text.head? text := rfl

@[simp]
theorem bump_bind (f : Unit → Parser M β) (text : List Char) :
    (bump >>= f) text = f () text.tail := rfl

theorem bind_apply (p : Parser M α) (f : α → Parser M β) (text : List Char) :
    (p >>= f) text = (p text).bind fun result => f result.1 result.2 := rfl

variable {p : Parser M α} {f : α → Parser M β} {text rest : List Char}

theorem bind_of_ok {a : α} (h : p text = .ok (a, rest)) : (p >>= f) text = f a rest := by
  rw [bind_apply, h]
  rfl

theorem bind_eq_ok {result : β × List Char} :
    (p >>= f) text = .ok result ↔ ∃ a rest, p text = .ok (a, rest) ∧ f a rest = .ok result := by
  constructor
  · intro h
    rw [bind_apply] at h
    cases hp : p text with
    | error failure =>
      rw [hp] at h
      cases h
    | ok first =>
      rw [hp] at h
      exact ⟨first.1, first.2, rfl, h⟩
  · rintro ⟨a, rest, hp, hf⟩
    rwa [bind_of_ok hp]

theorem map_eq_ok {f : α → β} {b : β} :
    (f <$> p) text = .ok (b, rest) ↔ ∃ a, p text = .ok (a, rest) ∧ f a = b := by
  rw [← bind_pure_comp, bind_eq_ok]
  constructor
  · rintro ⟨a, rest', hp, hf⟩
    obtain ⟨rfl, rfl⟩ := Prod.mk.inj (Except.ok.inj hf)
    exact ⟨a, hp, rfl⟩
  · rintro ⟨a, hp, rfl⟩
    exact ⟨a, rest, hp, rfl⟩

/-! ## Blank characters -/

variable (space : Char → Bool)

/-- The text behind the blank characters in front. -/
def skip (text : List Char) : List Char := text.dropWhile space

def skipSpace : Parser M Unit := fun text => .ok ((), skip space text)

/-- Only blank characters stand between. -/
def Blank (text rest : List Char) : Prop := ∃ blanks, (∀ c ∈ blanks, space c = true) ∧
    text = blanks ++ rest

/-- The parser gives the result and leaves the rest, but for blank characters in front of it. -/
def Runs (p : Parser M α) (a : α) (text rest : List Char) : Prop :=
  ∃ left, p text = .ok (a, left) ∧ skip space left = skip space rest

/-- So it does wherever the text starts, however many blank characters are in front of it. -/
def Reads (p : Parser M α) (a : α) (text rest : List Char) : Prop :=
  ∀ start, skip space start = skip space text → Runs space p a start rest

variable {space}

@[simp]
theorem skipSpace_bind (f : Unit → Parser M β) (text : List Char) :
    (skipSpace space >>= f) text = f () (skip space text) := rfl

@[simp]
theorem skip_skip (text : List Char) : skip space (skip space text) = skip space text :=
  List.dropWhile_idempotent _ text

theorem skip_of_head (h : ∀ c ∈ text.head?, space c = false) : skip space text = text := by
  cases text with
  | nil => rfl
  | cons c text => exact List.dropWhile_cons_of_neg (by simp [h c rfl])

theorem head_skip (text : List Char) : ∀ c ∈ (skip space text).head?, space c = false := by
  intro c hc
  cases hspace : space c with
  | false => rfl
  | true =>
    have hnot := List.head?_dropWhile_not space text
    rw [show (text.dropWhile space).head? = some c from hc] at hnot
    simp [hspace] at hnot

theorem Blank.refl (text : List Char) : Blank space text text :=
  ⟨[], fun _ hc => absurd hc List.not_mem_nil, rfl⟩

theorem Blank.trans {a b c : List Char} (hab : Blank space a b) (hbc : Blank space b c) :
    Blank space a c := by
  obtain ⟨blanks, hblanks, rfl⟩ := hab
  obtain ⟨others, hothers, rfl⟩ := hbc
  refine ⟨blanks ++ others, fun d hd => ?_, (List.append_assoc _ _ _).symm⟩
  exact (List.mem_append.mp hd).elim (hblanks d) (hothers d)

theorem blank_skip (text : List Char) : Blank space text (skip space text) :=
  ⟨text.takeWhile space, fun _ hc => List.mem_takeWhile_imp hc,
    List.takeWhile_append_dropWhile.symm⟩

theorem Blank.skip_eq (h : Blank space text rest) : skip space text = skip space rest := by
  obtain ⟨blanks, hblanks, rfl⟩ := h
  exact List.dropWhile_append_of_pos hblanks

theorem blank_of_skip_eq_nil (h : skip space text = []) : Blank space text [] :=
  h ▸ blank_skip text

theorem Blank.length_le (h : Blank space text rest) : rest.length ≤ text.length := by
  obtain ⟨blanks, -, rfl⟩ := h
  simp

theorem Reads.runs {a : α} (h : Reads space p a text rest) : Runs space p a text rest :=
  h text rfl

theorem Reads.runs_skip {a : α} (h : Reads space p a text rest) :
    Runs space p a (skip space text) rest :=
  h _ (skip_skip text)

theorem reads_pure (a : α) (text : List Char) : Reads space (pure a : Parser M α) a text text :=
  fun start hstart => ⟨start, rfl, hstart⟩

/-- One parser behind the other. -/
theorem Runs.bind {a : α} {b : β} {middle : List Char}
    (hp : Runs space p a text middle) (hf : Reads space (f a) b middle rest) :
    Runs space (p >>= f) b text rest := by
  obtain ⟨left, hleft, hmiddle⟩ := hp
  obtain ⟨last, hlast, hrest⟩ := hf left hmiddle
  exact ⟨last, by rw [bind_of_ok hleft, hlast], hrest⟩

theorem Reads.bind {p : Parser M α} {f : α → Parser M β} {a : α} {b : β}
    {text middle rest : List Char}
    (hp : Reads space p a text middle) (hf : Reads space (f a) b middle rest) :
    Reads space (p >>= f) b text rest :=
  fun start hstart => (hp start hstart).bind hf

theorem Reads.map {a : α} (hp : Reads space p a text rest) (f : α → β) :
    Reads space (f <$> p) (f a) text rest := by
  intro start hstart
  obtain ⟨left, hleft, hrest⟩ := hp start hstart
  exact ⟨left, map_eq_ok.mpr ⟨a, hleft, rfl⟩, hrest⟩

/-- A parser that passes over blank characters first. -/
theorem reads_of_skip {f : Unit → Parser M α} {a : α}
    (h : Runs space (f ()) a (skip space text) rest) :
    Reads space (skipSpace space >>= f) a text rest := by
  intro start hstart
  rw [← hstart] at h
  exact h

/-! ## Places -/

/-- Started in the source, the parser stops in it. -/
def Within (source : List Char) (p : Parser M α) : Prop :=
  ∀ text, text <:+ source →
    match p text with
    | .ok (_, rest) => rest <:+ source
    | .error failure => failure.rest <:+ source

variable {source : List Char}

theorem within_pure (a : α) : Within source (pure a : Parser M α) := fun _ htext => htext

theorem within_fail (message : M) : Within source (fail message : Parser M α) :=
  fun _ htext => htext

theorem within_failAt (h : rest <:+ source) (message : M) :
    Within source (failAt rest message : Parser M α) := fun _ _ => h

theorem within_peek : Within source (peek : Parser M _) := fun _ htext => htext

theorem within_bump : Within source (bump : Parser M _) := fun text htext =>
    (List.tail_suffix text).trans htext

theorem within_skipSpace : Within source (skipSpace space : Parser M _) := fun _ htext =>
  (List.dropWhile_suffix space).trans htext

theorem Within.bind_of_ok (hp : Within source p)
    (hf : ∀ a text rest, text <:+ source → p text = .ok (a, rest) → Within source (f a)) :
    Within source (p >>= f) := by
  intro text htext
  have hfirst := hp text htext
  cases h : p text with
  | error failure =>
    rw [h] at hfirst
    rw [bind_apply, h]
    exact hfirst
  | ok first =>
    rw [h] at hfirst
    rw [bind_apply, h]
    exact hf first.1 text first.2 htext h first.2 hfirst

theorem Within.bind (hp : Within source p) (hf : ∀ a, Within source (f a)) :
    Within source (p >>= f) :=
  hp.bind_of_ok fun a _ _ _ _ => hf a

theorem Within.map (hp : Within source p) (f : α → β) : Within source (f <$> p) := by
  rw [← bind_pure_comp]
  exact hp.bind fun a => within_pure (f a)

/-- What is left when the parser is reached stands in the source, too. -/
theorem within_get_bind {f : List Char → Parser M β}
    (hf : ∀ text, text <:+ source → Within source (f text)) : Within source (get >>= f) :=
  fun text htext => hf text htext text htext

end Scanning
