import ParadoxCode.Format.Paths

/-!
# Interned texts

`Interner` of `ir.rs`. Its fields are its own: a pass that is handed an interner can only intern
further texts (`Interning`), so that a symbol keeps its text (`Interner.Extends.resolve`).
-/

namespace ParadoxCode.Rules

open Format

abbrev Symbol := Nat

structure Interner where
  strings : List Str
  deriving DecidableEq

namespace Interner

/-- `intern_verbatim`: the symbol of the text, a new one if there is none. -/
def internVerbatim (interner : Interner) (text : Str) : Symbol × Interner :=
  match interner.strings.idxOf? text with
  | some symbol => (symbol, interner)
  | none => (interner.strings.length, ⟨interner.strings ++ [text]⟩)

/-- `intern_folded`: the symbol of the text in lower case. -/
def internFolded (interner : Interner) (text : Str) : Symbol × Interner :=
  interner.internVerbatim (toAsciiLowercase text)

/-- The text behind a symbol. A symbol of another interner may have none. -/
def resolve (interner : Interner) (symbol : Symbol) : Str :=
  (interner.strings[symbol]?).getD []

/-- The symbol has a text. -/
def Has (interner : Interner) (symbol : Symbol) : Prop :=
  symbol < interner.strings.length

/-- Nothing but further texts has been added. -/
def Extends (before after : Interner) : Prop :=
  before.strings <+: after.strings

theorem Extends.refl (interner : Interner) : interner.Extends interner :=
  List.prefix_rfl

theorem Extends.trans {a b c : Interner} (hab : a.Extends b) (hbc : b.Extends c) : a.Extends c :=
  List.IsPrefix.trans hab hbc

theorem Extends.has {before after : Interner} (h : before.Extends after) {symbol : Symbol}
    (hs : before.Has symbol) : after.Has symbol :=
  lt_of_lt_of_le hs h.length_le

/-- A symbol keeps its text. -/
theorem Extends.resolve {before after : Interner} (h : before.Extends after) {symbol : Symbol}
    (hs : before.Has symbol) : after.resolve symbol = before.resolve symbol := by
  obtain ⟨more, hmore⟩ := h
  unfold Interner.resolve
  rw [← hmore, List.getElem?_append_left hs]

theorem extends_internVerbatim (interner : Interner) (text : Str) :
    interner.Extends (interner.internVerbatim text).2 := by
  unfold internVerbatim
  split
  · exact Extends.refl interner
  · exact List.prefix_append _ _

theorem has_internVerbatim (interner : Interner) (text : Str) :
    (interner.internVerbatim text).2.Has (interner.internVerbatim text).1 := by
  unfold internVerbatim
  split
  · rename_i symbol h
    exact (List.findIdx?_eq_some_iff_getElem.mp h).1
  · show interner.strings.length < (interner.strings ++ [text]).length
    simp

end Interner

/-- A stretch of a pass that is handed the interner: it interns texts one after the other, and what
it does next may depend on the symbols. -/
inductive Interning (α : Type) where
  | done (a : α)
  | verbatim (text : Str) (next : Symbol → Interning α)
  | folded (text : Str) (next : Symbol → Interning α)

namespace Interning

variable {α β : Type}

def run : Interning α → Interner → α × Interner
  | done a, interner => (a, interner)
  | verbatim text next, interner =>
    let (symbol, interner) := interner.internVerbatim text
    (next symbol).run interner
  | folded text next, interner =>
    let (symbol, interner) := interner.internFolded text
    (next symbol).run interner

def bind : Interning α → (α → Interning β) → Interning β
  | done a, f => f a
  | verbatim text next, f => verbatim text fun symbol => (next symbol).bind f
  | folded text next, f => folded text fun symbol => (next symbol).bind f

instance : Monad Interning where
  pure := done
  bind := bind

/-- `intern_verbatim`. -/
def internVerbatim (text : Str) : Interning Symbol :=
  verbatim text done

/-- `intern_folded`. -/
def internFolded (text : Str) : Interning Symbol :=
  folded text done

@[simp]
theorem run_pure (a : α) (interner : Interner) : (pure a : Interning α).run interner =
    (a, interner) := rfl

@[simp]
theorem run_bind (m : Interning α) (f : α → Interning β) (interner : Interner) :
    (m >>= f).run interner = (f (m.run interner).1).run (m.run interner).2 := by
  change (m.bind f).run interner = _
  induction m generalizing interner with
  | done a => rfl
  | verbatim text next ih => exact ih _ _
  | folded text next ih => exact ih _ _

@[simp]
theorem run_internVerbatim (text : Str) (interner : Interner) :
    (internVerbatim text).run interner = interner.internVerbatim text := rfl

@[simp]
theorem run_internFolded (text : Str) (interner : Interner) :
    (internFolded text).run interner = interner.internFolded text := rfl

/-- Whatever it does, a stretch of a pass only adds texts. -/
theorem extends_run (m : Interning α) (interner : Interner) :
    interner.Extends (m.run interner).2 := by
  induction m generalizing interner with
  | done a => exact Interner.Extends.refl interner
  | verbatim text next ih => exact (interner.extends_internVerbatim text).trans (ih _ _)
  | folded text next ih => exact (interner.extends_internVerbatim _).trans (ih _ _)

end Interning

end ParadoxCode.Rules
