import Mathlib

/-!
# Computations that fail or panic

A computation returns a value, an error that its callers see, or panics. It is
safe when it does not panic.

## Main definitions

- `Checked` — computations with errors in which a panic is possible
- `Safe` — the computation does not panic
- `safe_bind` — safety of a sequence
-/

universe u

/-- A value or an error, or `none` for a panic. -/
abbrev Checked (ε : Type u) : Type u → Type u := ExceptT ε Option

namespace Checked

variable {ε ε' α β : Type u}

/-- What panics where there is no value. -/
def ofOption (x : Option α) : Checked ε α := ExceptT.mk (x.map .ok)

def ofExcept (x : Except ε α) : Checked ε α := ExceptT.mk (some x)

/-- `map_err`: a panic stays one. -/
def mapError (f : ε → ε') (x : Checked ε α) : Checked ε' α :=
  ExceptT.mk (x.run.map fun r => r.mapError f)

def Safe (x : Checked ε α) : Prop := x.run.isSome = true

variable {x : Checked ε α} {f : α → Checked ε β}

theorem safe_pure {a : α} : Safe (pure a : Checked ε α) := rfl

theorem safe_throw {e : ε} : Safe (throw e : Checked ε α) := rfl

theorem safe_ofOption {o : Option α} : Safe (ofOption o : Checked ε α) ↔ o.isSome = true := by
  cases o <;> exact Iff.rfl

theorem safe_ofExcept {r : Except ε α} : Safe (ofExcept r) := rfl

theorem safe_mapError {g : ε → ε'} : Safe (mapError g x) ↔ Safe x := by
  obtain _ | r := x <;> exact Iff.rfl

theorem safe_map {g : α → β} : Safe (g <$> x) ↔ Safe x := by
  obtain _ | r := x
  · exact Iff.rfl
  cases r <;> exact Iff.rfl

theorem ofOption_some {a : α} : (ofOption (some a) : Checked ε α) = pure a := rfl

theorem pure_inj {a b : α} : (pure a : Checked ε α) = pure b ↔ a = b := by
  constructor
  · intro h
    cases h
    rfl
  · rintro rfl
    rfl

theorem throw_bind {e : ε} : (throw e >>= f : Checked ε β) = throw e := rfl

theorem throw_ne_pure {e : ε} {a : α} : (throw e : Checked ε α) ≠ pure a := by
  rintro h
  cases h

theorem safe_bind : Safe (x >>= f) ↔ Safe x ∧ ∀ a, x = pure a → Safe (f a) := by
  obtain _ | r := x
  · refine iff_of_false (by simp [Safe, bind, ExceptT.bind, ExceptT.mk, ExceptT.run]) ?_
    rintro ⟨hx, -⟩
    cases hx
  cases r with
  | error e =>
    refine iff_of_true rfl ⟨rfl, fun a ha => ?_⟩
    cases ha
  | ok a =>
    constructor
    · intro h
      refine ⟨rfl, fun a' ha => ?_⟩
      cases ha
      exact h
    · rintro ⟨-, h⟩
      exact h a rfl

theorem mapError_eq_pure {g : ε → ε'} {a : α} : mapError g x = pure a ↔ x = pure a := by
  obtain _ | r := x
  · exact iff_of_false (fun h => by cases h) (fun h => by cases h)
  cases r with
  | error e => exact iff_of_false (fun h => by cases h) (fun h => by cases h)
  | ok a' =>
    constructor
    · intro h
      cases h
      rfl
    · intro h
      cases h
      rfl

end Checked
