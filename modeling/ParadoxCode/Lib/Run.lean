import Mathlib.Tactic.Common

/-!
# Programs over a state

A program reads and changes a state and returns a value or fails. Failure stands for everything a
program must not do: a bad index, an underflow, running out of fuel.

1. `Moves R` says that whatever a program does is a step of the preorder `R`: frame conditions and
   monotone quantities.
2. `Sim` relates two programs that run in lockstep until one of them stops early. From the stop on
   only their frames are known, and the relation `Stop` has to survive them.
-/

/-- A program over the state `S` that returns an `α` or fails. -/
def Run (S α : Type) : Type := S → Option (α × S)

namespace Run

variable {S T α β : Type}

instance : Monad (Run S) where
  pure a := fun s => some (a, s)
  bind x f := fun s => (x s).bind fun p => f p.1 p.2

/-- Reads the state. -/
def read (f : S → α) : Run S α := fun s => some (f s, s)

/-- Changes the state. -/
def modify (f : S → S) : Run S Unit := fun s => some ((), f s)

def fail : Run S α := fun _ => none

theorem pure_apply (a : α) (s : S) : (pure a : Run S α) s = some (a, s) := rfl

theorem bind_apply (x : Run S α) (f : α → Run S β) (s : S) :
    (x >>= f) s = (x s).bind fun p => f p.1 p.2 := rfl

theorem read_apply (f : S → α) (s : S) : read f s = some (f s, s) := rfl

theorem modify_apply (f : S → S) (s : S) : modify f s = some ((), f s) := rfl

theorem read_bind (f : S → α) (k : α → Run S β) (s : S) : (read f >>= k) s = k (f s) s := rfl

theorem modify_bind (f : S → S) (k : Unit → Run S β) (s : S) :
    (modify f >>= k) s = k () (f s) := rfl

theorem bind_eq_some_iff {x : Run S α} {f : α → Run S β} {s s' : S} {b : β} :
    (x >>= f) s = some (b, s') ↔ ∃ a t, x s = some (a, t) ∧ f a t = some (b, s') := by
  rw [bind_apply, Option.bind_eq_some_iff]
  constructor
  · rintro ⟨⟨a, t⟩, hx, hf⟩
    exact ⟨a, t, hx, hf⟩
  · rintro ⟨a, t, hx, hf⟩
    exact ⟨(a, t), hx, hf⟩

theorem bind_of_eq_some {x : Run S α} {f : α → Run S β} {s t : S} {a : α}
    (h : x s = some (a, t)) : (x >>= f) s = f a t := by
  rw [bind_apply, h]
  rfl

/-! ## Frames -/

/-- Every run of the program is a step of `R`. -/
def Moves (R : S → S → Prop) (x : Run S α) : Prop := ∀ ⦃s a s'⦄, x s = some (a, s') → R s s'

/-- A frame: what a program may do at most, closed under doing nothing and doing more. -/
structure Frame (S : Type) where
  Step : S → S → Prop
  refl : ∀ s, Step s s
  trans : ∀ {s t u}, Step s t → Step t u → Step s u

namespace Moves

variable {F : Frame S}

theorem pure (a : α) : Moves F.Step (pure a : Run S α) := by
  rintro s _ _ ⟨⟩
  exact F.refl s

theorem read (f : S → α) : Moves F.Step (read f) := by
  rintro s _ _ ⟨⟩
  exact F.refl s

theorem fail : Moves F.Step (fail : Run S α) := by
  rintro s _ _ ⟨⟩

theorem modify {f : S → S} (h : ∀ s, F.Step s (f s)) : Moves F.Step (modify f) := by
  rintro s _ _ ⟨⟩
  exact h s

theorem bind {x : Run S α} {f : α → Run S β} (hx : Moves F.Step x)
    (hf : ∀ a, Moves F.Step (f a)) : Moves F.Step (x >>= f) := by
  intro s b s' h
  obtain ⟨a, t, h₁, h₂⟩ := bind_eq_some_iff.mp h
  exact F.trans (hx h₁) (hf a h₂)

end Moves

/-! ## Simulation up to a stop -/

/-- Two programs side by side: the states that correspond, the states after one of them has
stopped, and the frames of both, which `Stop` survives. -/
structure Link (S T : Type) where
  Same : S → T → Prop
  Stop : S → T → Prop
  left : Frame S
  right : Frame T
  stop_step : ∀ {s s' t t'}, Stop s t → left.Step s s' → right.Step t t' → Stop s' t'

/-- `x` and `y` return the same value and keep corresponding states, unless one of them stops. -/
structure Sim (L : Link S T) (x : Run S α) (y : Run T α) : Prop where
  agree : ∀ ⦃s t a s' b t'⦄, L.Same s t → x s = some (a, s') → y t = some (b, t') →
    (a = b ∧ L.Same s' t') ∨ L.Stop s' t'
  left : Moves L.left.Step x
  right : Moves L.right.Step y

namespace Sim

variable {L : Link S T}

theorem pure (a : α) : Sim L (pure a : Run S α) (pure a : Run T α) where
  agree := by
    rintro s t _ _ _ _ h ⟨⟩ ⟨⟩
    exact Or.inl ⟨rfl, h⟩
  left := Moves.pure a
  right := Moves.pure a

theorem fail : Sim L (fail : Run S α) (fail : Run T α) where
  agree := by rintro s t _ _ _ _ h ⟨⟩
  left := Moves.fail
  right := Moves.fail

theorem read {f : S → α} {g : T → α} (h : ∀ s t, L.Same s t → f s = g t) :
    Sim L (read f) (read g) where
  agree := by
    rintro s t _ _ _ _ hs ⟨⟩ ⟨⟩
    exact Or.inl ⟨h s t hs, hs⟩
  left := Moves.read f
  right := Moves.read g

theorem modify {f : S → S} {g : T → T} (h : ∀ s t, L.Same s t → L.Same (f s) (g t))
    (hf : ∀ s, L.left.Step s (f s)) (hg : ∀ t, L.right.Step t (g t)) :
    Sim L (modify f) (modify g) where
  agree := by
    rintro s t _ _ _ _ hs ⟨⟩ ⟨⟩
    exact Or.inl ⟨rfl, h s t hs⟩
  left := Moves.modify hf
  right := Moves.modify hg

theorem bind {x : Run S α} {y : Run T α} {f : α → Run S β} {g : α → Run T β} (hx : Sim L x y)
    (hf : ∀ a, Sim L (f a) (g a)) : Sim L (x >>= f) (y >>= g) where
  agree := by
    intro s t a s' b t' h hs ht
    obtain ⟨c, s₁, hs₁, hs₂⟩ := bind_eq_some_iff.mp hs
    obtain ⟨d, t₁, ht₁, ht₂⟩ := bind_eq_some_iff.mp ht
    rcases hx.agree h hs₁ ht₁ with ⟨rfl, h₁⟩ | hstop
    · exact (hf c).agree h₁ hs₂ ht₂
    · exact Or.inr (L.stop_step hstop ((hf c).left hs₂) ((hf d).right ht₂))
  left := Moves.bind hx.left fun a => (hf a).left
  right := Moves.bind hx.right fun a => (hf a).right

theorem ite {c : Prop} [Decidable c] {x x' : Run S α} {y y' : Run T α} (h : Sim L x y)
    (h' : Sim L x' y') : Sim L (if c then x else x') (if c then y else y') := by
  split_ifs
  · exact h
  · exact h'

end Sim

end Run
