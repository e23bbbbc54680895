import Mathlib

/-!
# Runs of a step function

A total step function folded over a list of labels, a fallible step function
folded with `Except`, and the histories both leave behind. The invariant rules
package the induction over a run once: what one step keeps, every run keeps.

## Main definitions

- `Guarded` — a guard holds in the state before every step of a run
- `Transition`, `trace` — the transitions a fallible run has made
- `AllSplits` — a property of each entry of a history and what came before it
-/

namespace Runs

universe u v w

variable {σ : Type u} {ι : Type v} {ε : Type w}

theorem ok_bind {α β : Type u} {x : Except ε α} {f : α → Except ε β} {b : β} :
    (x >>= f) = .ok b ↔ ∃ a, x = .ok a ∧ f a = .ok b := by
  cases x <;> simp [bind, Except.bind]

/-- A computation that succeeds, then one that succeeds. -/
theorem exists_ok_bind {α β : Type u} {x : Except ε α} {f : α → Except ε β} {a : α}
    (hx : x = .ok a) (hf : ∃ b, f a = .ok b) : ∃ b, (x >>= f) = .ok b :=
  hf.imp fun _ hb => ok_bind.mpr ⟨a, hx, hb⟩

section Total

variable (step : σ → ι → σ)

/-- Each step of the run is taken in a state where its guard holds. -/
def Guarded (G : σ → ι → Prop) : σ → List ι → Prop
  | _, [] => True
  | s, i :: is => G s i ∧ Guarded G (step s i) is

variable {step}

@[simp] theorem guarded_nil {G : σ → ι → Prop} {s : σ} : Guarded step G s [] := trivial

@[simp] theorem guarded_cons {G : σ → ι → Prop} {s : σ} {i : ι} {is : List ι} :
    Guarded step G s (i :: is) ↔ G s i ∧ Guarded step G (step s i) is := Iff.rfl

/-- **Invariant rule**: what a guarded step keeps, a guarded run keeps. -/
theorem Guarded.invariant {G : σ → ι → Prop} {P : σ → Prop}
    (hstep : ∀ s i, P s → G s i → P (step s i)) {s : σ} {is : List ι}
    (h : Guarded step G s is) (hs : P s) : P (is.foldl step s) := by
  induction is generalizing s with
  | nil => exact hs
  | cons i is ih => exact ih h.2 (hstep s i hs h.1)

theorem guarded_append {G : σ → ι → Prop} {s : σ} {is js : List ι} :
    Guarded step G s (is ++ js) ↔ Guarded step G s is ∧ Guarded step G (is.foldl step s) js := by
  induction is generalizing s with
  | nil => simp
  | cons i is ih => simp [ih, and_assoc]

end Total

/-- One successful step, with the states around it. -/
structure Transition (σ : Type u) (ι : Type v) where
  pre : σ
  label : ι
  post : σ

section Fallible

variable (step : σ → ι → Except ε σ)

/-- The transitions of a fallible run, up to its first failure. -/
def trace : σ → List ι → List (Transition σ ι)
  | _, [] => []
  | s, i :: is =>
    match step s i with
    | .ok t => ⟨s, i, t⟩ :: trace t is
    | .error _ => []

variable {step}

theorem foldlM_cons_ok {s t : σ} {i : ι} {is : List ι} :
    (i :: is).foldlM step s = .ok t ↔ ∃ r, step s i = .ok r ∧ is.foldlM step r = .ok t := by
  rw [List.foldlM_cons]
  exact ok_bind

/-- **Invariant rule for batches**: a property of the state and of the history that one
    successful step keeps is kept by a successful batch, whose transitions join the history. -/
theorem foldlM_invariant {Q : σ → List (Transition σ ι) → Prop} {is : List ι}
    (hstep : ∀ s h t, ∀ i ∈ is, Q s h → step s i = .ok t → Q t (h ++ [⟨s, i, t⟩]))
    {s t : σ} {h : List (Transition σ ι)} (hs : Q s h)
    (hrun : is.foldlM step s = .ok t) : Q t (h ++ trace step s is) := by
  induction is generalizing s h with
  | nil =>
    simp only [List.foldlM_nil, pure, Except.pure, Except.ok.injEq] at hrun
    simpa [trace, ← hrun] using hs
  | cons i is ih =>
    obtain ⟨r, hr, hrest⟩ := foldlM_cons_ok.mp hrun
    have hfirst := hstep s h r i List.mem_cons_self hs hr
    have h' := ih (fun s h t j hj => hstep s h t j (List.mem_cons_of_mem _ hj)) hfirst hrest
    simpa [trace, hr] using h'

/-- A property of the state alone, kept by every step of a list that the step allows. -/
theorem foldlM_preserves {P : σ → Prop} {is : List ι}
    (hstep : ∀ s t, ∀ i ∈ is, P s → step s i = .ok t → P t) {s t : σ} (hs : P s)
    (hrun : is.foldlM step s = .ok t) : P t := by
  induction is generalizing s with
  | nil =>
    simp only [List.foldlM_nil, pure, Except.pure, Except.ok.injEq] at hrun
    exact hrun ▸ hs
  | cons i is ih =>
    obtain ⟨r, hr, hrest⟩ := foldlM_cons_ok.mp hrun
    exact ih (fun s t j hj => hstep s t j (List.mem_cons_of_mem _ hj))
      (hstep s r i List.mem_cons_self hs hr) hrest

/-- The transitions of a run are successful steps with labels of the run. -/
theorem of_mem_trace {s : σ} {is : List ι} {x : Transition σ ι} (hx : x ∈ trace step s is) :
    step x.pre x.label = .ok x.post ∧ x.label ∈ is := by
  induction is generalizing s with
  | nil => simp [trace] at hx
  | cons i is ih =>
    simp only [trace] at hx
    split at hx
    · next t ht =>
      rcases List.mem_cons.mp hx with rfl | hx
      · exact ⟨ht, List.mem_cons_self⟩
      · exact ⟨(ih hx).1, List.mem_cons_of_mem _ (ih hx).2⟩
    · simp at hx

end Fallible

/-- Every entry of the history stands in `R` to what came before it. -/
def AllSplits {τ : Type u} (R : List τ → τ → Prop) (h : List τ) : Prop :=
  ∀ h₁ x h₂, h = h₁ ++ x :: h₂ → R h₁ x

theorem AllSplits.nil {τ : Type u} {R : List τ → τ → Prop} : AllSplits R [] := by
  intro h₁ x h₂ h
  simp at h

theorem AllSplits.of_mem {τ : Type u} {R : List τ → τ → Prop} {h : List τ} {x : τ}
    (hh : AllSplits R h) (hx : x ∈ h) : ∃ h₁, R h₁ x := by
  obtain ⟨h₁, h₂, heq⟩ := List.append_of_mem hx
  exact ⟨h₁, hh h₁ x h₂ heq⟩

/-- An entry of a history with one more element is that element or an entry of before. -/
theorem snoc_eq_append_cons {τ : Type u} {h h₁ h₂ : List τ} {x y : τ} :
    h ++ [x] = h₁ ++ y :: h₂ ↔
      (h = h₁ ∧ x = y ∧ h₂ = []) ∨ ∃ h₃, h₂ = h₃ ++ [x] ∧ h = h₁ ++ y :: h₃ := by
  constructor
  · intro heq
    rcases List.eq_nil_or_concat h₂ with rfl | ⟨h₃, z, rfl⟩
    · obtain ⟨rfl, hxy⟩ := List.append_inj' heq rfl
      exact .inl ⟨rfl, (List.cons.inj hxy).1, rfl⟩
    · have heq' : h ++ [x] = (h₁ ++ y :: h₃) ++ [z] := by simpa using heq
      obtain ⟨rfl, hxz⟩ := List.append_inj' heq' rfl
      obtain ⟨rfl, -⟩ := List.cons.inj hxz
      exact .inr ⟨h₃, by simp, rfl⟩
  · rintro (⟨rfl, rfl, rfl⟩ | ⟨h₃, rfl, rfl⟩)
    · rfl
    · simp

theorem AllSplits.snoc {τ : Type u} {R : List τ → τ → Prop} {h : List τ} {x : τ}
    (hh : AllSplits R h) (hx : R h x) : AllSplits R (h ++ [x]) := by
  intro h₁ y h₂ heq
  rcases snoc_eq_append_cons.mp heq with ⟨rfl, rfl, -⟩ | ⟨h₃, -, rfl⟩
  · exact hx
  · exact hh h₁ y h₃ rfl

/-- What holds of every split holds of the splits of a prefix. -/
theorem AllSplits.init {τ : Type u} {R : List τ → τ → Prop} {h h' : List τ}
    (hh : AllSplits R (h ++ h')) : AllSplits R h := by
  intro h₁ y h₂ heq
  exact hh h₁ y (h₂ ++ h') (by rw [heq, List.append_assoc, List.cons_append])

end Runs
