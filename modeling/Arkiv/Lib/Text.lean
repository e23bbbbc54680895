import Mathlib

/-!
# Texts with byte offsets

Texts are lists of Unicode scalar values. Offsets count the bytes of their UTF-8
form; a cut outside the text or inside a character is `none`.

## Main definitions

- `byteLen` — the number of bytes of a text
- `splitAt`, `slice` — a text cut at byte offsets
- `find`, `rsplitOnce` — the first and the last place of a character
- `trim` — a text without the blanks at its ends
-/

namespace Text

variable {s t a b : List Char} {c : Char} {i j : ℕ}

def byteLen (s : List Char) : ℕ := (s.map Char.utf8Size).sum

/-- The text in front of a byte offset and behind it. -/
def splitAt : ℕ → List Char → Option (List Char × List Char)
  | 0, s => some ([], s)
  | _ + 1, [] => none
  | i + 1, c :: s =>
    if c.utf8Size ≤ i + 1 then (splitAt (i + 1 - c.utf8Size) s).map fun (a, b) => (c :: a, b)
    else none

/-- The text between two byte offsets. -/
def slice (i j : ℕ) (s : List Char) : Option (List Char) :=
  if i ≤ j then (splitAt j s).bind fun (a, _) => (splitAt i a).map Prod.snd else none

def sliceFrom (i : ℕ) (s : List Char) : Option (List Char) := (splitAt i s).map Prod.snd

def sliceTo (j : ℕ) (s : List Char) : Option (List Char) := (splitAt j s).map Prod.fst

/-- The byte offset of the first `c`. -/
def find (c : Char) : List Char → Option ℕ
  | [] => none
  | d :: s => if d = c then some 0 else (find c s).map (d.utf8Size + ·)

/-- The text in front of the last `c` and behind it. -/
def rsplitOnce (c : Char) : List Char → Option (List Char × List Char)
  | [] => none
  | d :: s =>
    match rsplitOnce c s with
    | some (a, b) => some (d :: a, b)
    | none => if d = c then some ([], s) else none

def trim (blank : Char → Bool) (s : List Char) : List Char := (s.dropWhile blank).rdropWhile blank

@[simp] theorem byteLen_nil : byteLen [] = 0 := rfl

@[simp] theorem byteLen_cons : byteLen (c :: s) = c.utf8Size + byteLen s := by
  simp [byteLen]

@[simp] theorem byteLen_append : byteLen (s ++ t) = byteLen s + byteLen t := by
  simp [byteLen]

/-- A cut is a way to write the text. -/
theorem splitAt_eq_some : splitAt i s = some (a, b) ↔ s = a ++ b ∧ byteLen a = i := by
  induction s generalizing i a with
  | nil =>
    cases i with
    | zero =>
      rw [splitAt, Option.some.injEq, Prod.mk.injEq]
      constructor
      · rintro ⟨rfl, rfl⟩
        exact ⟨rfl, rfl⟩
      · rintro ⟨heq, -⟩
        obtain ⟨rfl, rfl⟩ := List.append_eq_nil_iff.mp heq.symm
        exact ⟨rfl, rfl⟩
    | succ i =>
      refine iff_of_false (by simp [splitAt]) ?_
      rintro ⟨heq, hlen⟩
      obtain ⟨rfl, -⟩ := List.append_eq_nil_iff.mp heq.symm
      simp at hlen
  | cons c s ih =>
    have hpos := c.utf8Size_pos
    cases i with
    | zero =>
      rw [splitAt, Option.some.injEq, Prod.mk.injEq]
      constructor
      · rintro ⟨rfl, rfl⟩
        exact ⟨rfl, rfl⟩
      · rintro ⟨heq, hlen⟩
        cases a with
        | nil => exact ⟨rfl, heq⟩
        | cons d a =>
          have hd := d.utf8Size_pos
          rw [byteLen_cons] at hlen
          omega
    | succ i =>
      rw [splitAt]
      by_cases hle : c.utf8Size ≤ i + 1
      · rw [if_pos hle, Option.map_eq_some_iff]
        constructor
        · rintro ⟨⟨a', b'⟩, hcut, heq⟩
          obtain ⟨rfl, rfl⟩ := Prod.mk.inj heq
          obtain ⟨rfl, hlen⟩ := ih.mp hcut
          exact ⟨rfl, by rw [byteLen_cons, hlen]; omega⟩
        · rintro ⟨heq, hlen⟩
          cases a with
          | nil => simp at hlen
          | cons d a =>
            rw [List.cons_append, List.cons.injEq] at heq
            obtain ⟨rfl, rfl⟩ := heq
            rw [byteLen_cons] at hlen
            exact ⟨(a, b), ih.mpr ⟨rfl, by omega⟩, rfl⟩
      · rw [if_neg hle]
        refine iff_of_false (by simp) ?_
        rintro ⟨heq, hlen⟩
        cases a with
        | nil => simp at hlen
        | cons d a =>
          rw [List.cons_append, List.cons.injEq] at heq
          rw [byteLen_cons, ← heq.1] at hlen
          omega

theorem slice_eq_some {x : List Char} : slice i j s = some x ↔
    ∃ a b, s = a ++ x ++ b ∧ byteLen a = i ∧ byteLen (a ++ x) = j := by
  unfold slice
  constructor
  · intro h
    split at h
    next hle =>
      obtain ⟨⟨u, b⟩, hu, hx⟩ := Option.bind_eq_some_iff.mp h
      obtain ⟨⟨a, x'⟩, ha, rfl⟩ := Option.map_eq_some_iff.mp hx
      obtain ⟨rfl, hlen⟩ := splitAt_eq_some.mp hu
      obtain ⟨rfl, hlen'⟩ := splitAt_eq_some.mp ha
      exact ⟨a, b, rfl, hlen', hlen⟩
    · cases h
  · rintro ⟨a, b, rfl, rfl, rfl⟩
    rw [if_pos (by rw [byteLen_append]; omega), splitAt_eq_some.mpr ⟨rfl, rfl⟩]
    exact Option.map_eq_some_iff.mpr ⟨(a, x), splitAt_eq_some.mpr ⟨rfl, rfl⟩, rfl⟩

theorem sliceFrom_append : sliceFrom (byteLen a) (a ++ b) = some b :=
  Option.map_eq_some_iff.mpr ⟨(a, b), splitAt_eq_some.mpr ⟨rfl, rfl⟩, rfl⟩

theorem sliceTo_append : sliceTo (byteLen a) (a ++ b) = some a :=
  Option.map_eq_some_iff.mpr ⟨(a, b), splitAt_eq_some.mpr ⟨rfl, rfl⟩, rfl⟩

/-- The first `c` splits the text. -/
theorem find_eq_some : find c s = some i ↔ ∃ a b, s = a ++ c :: b ∧ c ∉ a ∧ byteLen a = i := by
  induction s generalizing i with
  | nil => simp [find]
  | cons d s ih =>
    rw [find]
    by_cases hd : d = c
    · subst hd
      rw [if_pos rfl, Option.some.injEq]
      constructor
      · rintro rfl
        exact ⟨[], s, rfl, List.not_mem_nil, rfl⟩
      · rintro ⟨a, b, heq, hfree, rfl⟩
        cases a with
        | nil => rfl
        | cons e a =>
          rw [List.cons_append, List.cons.injEq] at heq
          exact absurd (heq.1 ▸ List.mem_cons_self) hfree
    · rw [if_neg hd, Option.map_eq_some_iff]
      constructor
      · rintro ⟨k, hk, rfl⟩
        obtain ⟨a, b, rfl, hfree, rfl⟩ := ih.mp hk
        refine ⟨d :: a, b, rfl, ?_, byteLen_cons⟩
        rw [List.mem_cons, not_or]
        exact ⟨Ne.symm hd, hfree⟩
      · rintro ⟨a, b, heq, hfree, rfl⟩
        cases a with
        | nil => exact absurd (List.cons.inj heq).1 hd
        | cons e a =>
          rw [List.cons_append, List.cons.injEq] at heq
          obtain ⟨rfl, rfl⟩ := heq
          rw [List.mem_cons, not_or] at hfree
          exact ⟨byteLen a, ih.mpr ⟨a, b, rfl, hfree.2, rfl⟩, byteLen_cons.symm⟩

end Text
