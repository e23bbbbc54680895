import Mathlib

/-!
# Related computations

Two partial computations that fail together or return related values, and two
machines that move in step: what one answers to a list of calls the other
answers too.

## Main definitions

- `Related.map`, `Related.bind` — related computations in sequence
- `Related.answers` — what a machine answers to a list of calls
- `Related.answers_eq` — machines that move in step answer alike
-/

namespace Related

universe u

variable {α β γ δ : Type u} {R : α → β → Prop} {S : γ → δ → Prop} {x : Option α} {y : Option β}

theorem map (h : Option.Rel R x y) {f : α → γ} {g : β → δ} (hfg : ∀ a b, R a b → S (f a) (g b)) :
    Option.Rel S (x.map f) (y.map g) := by
  cases h with
  | none => exact .none
  | some hab => exact .some (hfg _ _ hab)

theorem bind (h : Option.Rel R x y) {f : α → Option γ} {g : β → Option δ}
    (hfg : ∀ a b, R a b → Option.Rel S (f a) (g b)) : Option.Rel S (x.bind f) (y.bind g) := by
  cases h with
  | none => exact .none
  | some hab => exact hfg _ _ hab

theorem refl {R : α → α → Prop} (hR : ∀ a, R a a) (x : Option α) : Option.Rel R x x := by
  cases x with
  | none => exact .none
  | some a => exact .some (hR a)

/-- What holds of both branches of a choice holds of the choice. -/
theorem ite {p : Prop} [Decidable p] {x' : Option α} {y' : Option β} (h : Option.Rel R x y)
    (h' : Option.Rel R x' y') : Option.Rel R (if p then x else x') (if p then y else y') := by
  by_cases hp : p
  · rw [if_pos hp, if_pos hp]
    exact h
  · rw [if_neg hp, if_neg hp]
    exact h'

section Machines

variable {σ τ ι ο : Type u} {step : σ → ι → Option (σ × ο)} {step' : τ → ι → Option (τ × ο)}

/-- What a machine answers to calls, until it fails. -/
def answers (step : σ → ι → Option (σ × ο)) : σ → List ι → Option (List ο)
  | _, [] => some []
  | s, i :: is => (step s i).bind fun r => (answers step r.1 is).map (r.2 :: ·)

/-- **Machines in step** answer alike. -/
theorem answers_eq {R : σ → τ → Prop}
    (hstep : ∀ s t i, R s t →
      Option.Rel (fun x y => R x.1 y.1 ∧ x.2 = y.2) (step s i) (step' t i))
    {s : σ} {t : τ} (h : R s t) (is : List ι) : answers step s is = answers step' t is := by
  induction is generalizing s t with
  | nil => rfl
  | cons i is ih =>
    have hfirst := hstep s t i h
    unfold answers
    generalize step s i = x at hfirst
    generalize step' t i = y at hfirst
    cases hfirst with
    | none => rfl
    | @some r r' hr =>
      rw [Option.bind_some, Option.bind_some, ih hr.1, hr.2]

end Machines

end Related
