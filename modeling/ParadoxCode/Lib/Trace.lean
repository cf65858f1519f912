import Mathlib.Tactic.Common

/-!
# Runs of a transition system

A system takes a step for each event, where it can. `Always P` says that `P` holds in every state a
run passes, `Allowed Ok` that every step of the run that succeeds meets a condition. An invariant
that allowed steps keep, and only these, makes the two the same.
-/

namespace Trace

variable {S E : Type} (step : S → E → Option S)

/-- The state behind a run, where every step succeeds. -/
def run : List E → S → Option S
  | [], s => some s
  | event :: events, s => (step s event).bind (run events)

/-- `P` holds in every state of the run. -/
def Always (P : S → Prop) : List E → S → Prop
  | [], s => P s
  | event :: events, s => P s ∧ ∀ t, step s event = some t → Always P events t

/-- Every step of the run meets the condition in the state it is taken in. -/
def Allowed (Ok : S → E → Prop) : List E → S → Prop
  | [], _ => True
  | event :: events, s => ∀ t, step s event = some t → Ok s event ∧ Allowed Ok events t

variable {step} {P Inv : S → Prop} {Ok : S → E → Prop}

theorem Always.start {events : List E} {s : S} (h : Always step P events s) : P s := by
  cases events with
  | nil => exact h
  | cons event events => exact h.1

/-- The invariant rule: allowed steps keep the invariant, the invariant implies `P`, and a step that
leads to a state with `P` is allowed. -/
theorem always_iff_allowed (hkeep : ∀ s event t, Inv s → Ok s event → step s event = some t → Inv t)
    (hinv : ∀ s, Inv s → P s)
    (honly : ∀ s event t, Inv s → step s event = some t → P t → Ok s event) {s : S} (hs : Inv s)
    (events : List E) : Always step P events s ↔ Allowed step Ok events s := by
  induction events generalizing s with
  | nil => exact iff_of_true (hinv s hs) trivial
  | cons event events ih =>
    constructor
    · rintro ⟨-, h⟩ t ht
      have hok := honly s event t hs ht (h t ht).start
      exact ⟨hok, (ih (hkeep s event t hs hok ht)).mp (h t ht)⟩
    · intro h
      refine ⟨hinv s hs, fun t ht => ?_⟩
      obtain ⟨hok, hrest⟩ := h t ht
      exact (ih (hkeep s event t hs hok ht)).mpr hrest

end Trace
