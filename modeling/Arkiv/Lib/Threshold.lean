import Mathlib

/-!
# The greatest key up to a threshold

A list whose keys strictly increase, searched for the last element with a key at
most `m`: the elements up to `m` are a prefix, and the last of them is the one
with the greatest such key.

## Main definitions

- `Increasing` — the keys of a list strictly increase
- `Greatest` — the element with the greatest key up to a threshold
- `Increasing.greatest_of_getLast?` — the last element up to `m` is the greatest
-/

namespace Threshold

universe u v

variable {α : Type u} {β : Type v} [LinearOrder β] {f : α → β} {l : List α} {m : β} {a b : α}

def Increasing (f : α → β) (l : List α) : Prop := l.Pairwise fun a b => f a < f b

structure Greatest (f : α → β) (l : List α) (m : β) (a : α) : Prop where
  mem : a ∈ l
  le : f a ≤ m
  max : ∀ b ∈ l, f b ≤ m → f b ≤ f a

theorem Increasing.inj (h : Increasing f l) (ha : a ∈ l) (hb : b ∈ l) (heq : f a = f b) : a = b := by
  have hnodup : (l.map f).Nodup := List.pairwise_map.mpr (h.imp fun hlt => ne_of_lt hlt)
  exact List.inj_on_of_nodup_map hnodup ha hb heq

theorem Greatest.unique (h : Increasing f l) (ha : Greatest f l m a) (hb : Greatest f l m b) :
    a = b :=
  h.inj ha.mem hb.mem (le_antisymm (hb.max a ha.mem ha.le) (ha.max b hb.mem hb.le))

theorem Greatest.mono {m' : β} (ha : Greatest f l m a) (hb : Greatest f l m' b) (hle : m ≤ m') :
    f a ≤ f b :=
  hb.max a ha.mem (ha.le.trans hle)

/-- The order of the keys is the order of the positions. -/
theorem Increasing.index_le (h : Increasing f l) {i j : ℕ} (hi : l[i]? = some a)
    (hj : l[j]? = some b) (hle : f a ≤ f b) : i ≤ j := by
  obtain ⟨hil, rfl⟩ := List.getElem?_eq_some_iff.mp hi
  obtain ⟨hjl, rfl⟩ := List.getElem?_eq_some_iff.mp hj
  by_contra hlt
  have hkeys := List.pairwise_iff_getElem.mp h j i hjl hil (by omega)
  exact absurd hle (not_le.mpr hkeys)

/-- The elements up to `m` stand at the front. -/
theorem Increasing.filter_isPrefix (h : Increasing f l) (m : β) :
    (l.filter fun a => f a ≤ m) <+: l := by
  induction l with
  | nil => exact List.nil_prefix
  | cons a l ih =>
    obtain ⟨ha, htail⟩ := List.pairwise_cons.mp h
    by_cases hle : f a ≤ m
    · rw [List.filter_cons_of_pos (by simpa using hle)]
      exact (List.prefix_cons_inj a).mpr (ih htail)
    · rw [List.filter_cons_of_neg (by simpa using hle), List.filter_eq_nil_iff.mpr ?_]
      · exact List.nil_prefix
      · intro b hb hbm
        exact hle ((ha b hb).le.trans (by simpa using hbm))

theorem Increasing.greatest_of_getLast? (h : Increasing f l)
    (hlast : (l.filter fun a => f a ≤ m).getLast? = some a) : Greatest f l m a := by
  have hmem : a ∈ l.filter fun a => f a ≤ m := List.mem_of_getLast? hlast
  obtain ⟨hl, hle⟩ := List.mem_filter.mp hmem
  refine ⟨hl, by simpa using hle, fun b hb hbm => ?_⟩
  have hmem' : b ∈ l.filter fun a => f a ≤ m := List.mem_filter.mpr ⟨hb, by simpa using hbm⟩
  obtain ⟨init, heq⟩ := List.getLast?_eq_some_iff.mp hlast
  have hsorted : (init ++ [a]).Pairwise fun a b => f a < f b := heq ▸ h.filter _
  rw [heq, List.mem_append, List.mem_singleton] at hmem'
  obtain hinit | rfl := hmem'
  · exact ((List.pairwise_append.mp hsorted).2.2 b hinit a (List.mem_singleton_self a)).le
  · exact le_rfl

end Threshold
