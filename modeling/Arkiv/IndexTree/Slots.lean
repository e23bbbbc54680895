import Mathlib
import Arkiv.IndexTree.Node

/-!
# Arrays with ascending keys

The children of the two small node kinds stand next to their key bytes, in
ascending order over the first entries. Insertion shifts the entries behind the
new key up, deletion shifts them down; both keep the order, and a lookup sees
the one entry that changed.

## Main definitions

- `Node.Ascending` — the order of the first keys
- `Node.map_findKey_shiftIn`, `Node.map_findKey_shiftOut` — lookups after the shifts
-/

namespace Arkiv.Node

variable {cap : ℕ} {α : Type} {n : ℕ} {keys : Fin cap → UInt8} {b : UInt8} {f : Fin cap → α}

/-- The first `n` keys ascend. -/
def Ascending (n : ℕ) (keys : Fin cap → UInt8) : Prop :=
  ∀ i j : Fin cap, i < j → j.val < n → keys i < keys j

theorem Ascending.inj (h : Ascending n keys) {i j : Fin cap} (hi : i.val < n) (hj : j.val < n)
    (heq : keys i = keys j) : i = j := by
  by_contra hne
  rcases lt_or_gt_of_ne hne with hlt | hlt
  · exact absurd heq (UInt8.ne_of_lt (h i j hlt hj))
  · exact absurd heq.symm (UInt8.ne_of_lt (h j i hlt hi))

/-- Keys that are copied into a larger or smaller array. -/
theorem Ascending.copy {cap' : ℕ} {keys' : Fin cap' → UInt8}
    (h : Ascending n keys)
    (hsame : ∀ i : Fin cap', i.val < n → ∃ j : Fin cap, j.val = i.val ∧ keys' i = keys j) :
    Ascending n keys' := by
  intro i j hij hj
  obtain ⟨i', hi', hi⟩ := hsame i (lt_trans hij hj)
  obtain ⟨j', hj', hj''⟩ := hsame j hj
  rw [hi, hj'']
  have hlt : i.val < j.val := hij
  exact h i' j' (show i'.val < j'.val by omega) (by omega)

theorem findKey_eq_none : findKey n keys b = none ↔ ∀ i, i.val < n → keys i ≠ b := by
  simp [findKey, List.find?_eq_none]

theorem findKey_copy {cap' : ℕ} {keys' : Fin cap' → UInt8}
    (hnone : findKey n keys b = none)
    (hsame : ∀ i : Fin cap', i.val < n → ∃ j : Fin cap, j.val = i.val ∧ keys' i = keys j) :
    findKey n keys' b = none := by
  rw [findKey_eq_none] at hnone ⊢
  intro i hi heq
  obtain ⟨j, hj, hkey⟩ := hsame i hi
  exact hnone j (by omega) (hkey.symm.trans heq)

theorem findKey_eq_some (h : Ascending n keys) {i : Fin cap} :
    findKey n keys b = some i ↔ i.val < n ∧ keys i = b := by
  constructor
  · intro hfind
    simpa using List.find?_some hfind
  · rintro ⟨hi, rfl⟩
    cases hfind : findKey n keys (keys i) with
    | none => exact absurd rfl (findKey_eq_none.mp hfind i hi)
    | some j =>
      obtain ⟨hj, hkey⟩ : j.val < n ∧ keys j = keys i := by simpa using List.find?_some hfind
      rw [h.inj hj hi hkey]

/-- A lookup reads the entry of the key. -/
theorem map_findKey_eq_some (h : Ascending n keys) {x : α} :
    (findKey n keys b).map f = some x ↔ ∃ i, i.val < n ∧ keys i = b ∧ f i = x := by
  rw [Option.map_eq_some_iff]
  constructor
  · rintro ⟨i, hi, hx⟩
    obtain ⟨hlt, hkey⟩ := (findKey_eq_some h).mp hi
    exact ⟨i, hlt, hkey, hx⟩
  · rintro ⟨i, hlt, hkey, hx⟩
    exact ⟨i, (findKey_eq_some h).mpr ⟨hlt, hkey⟩, hx⟩

theorem map_findKey_eq_none : (findKey n keys b).map f = none ↔ ∀ i, i.val < n → keys i ≠ b := by
  rw [Option.map_eq_none_iff, findKey_eq_none]

/-- A lookup after one entry is replaced. -/
theorem map_findKey_update (h : Ascending n keys) {i : Fin cap} (hi : findKey n keys b = some i)
    (x : α) (b' : UInt8) : (findKey n keys b').map (Function.update f i x) =
      if b' = b then some x else (findKey n keys b').map f := by
  by_cases hb : b' = b
  · rw [if_pos hb, hb, hi, Option.map_some, Function.update_self]
  · rw [if_neg hb]
    cases hfind : findKey n keys b' with
    | none => rfl
    | some j =>
      have hne : j ≠ i := by
        rintro rfl
        exact hb (((findKey_eq_some h).mp hfind).2.symm.trans ((findKey_eq_some h).mp hi).2)
      rw [Option.map_some, Option.map_some, Function.update_of_ne hne]

section InsertPos

theorem lt_insertPos {i : Fin cap} (hi : i.val < insertPos n keys b) : i.val < n ∧ keys i < b := by
  unfold insertPos at hi
  have hfront := List.takeWhile_prefix (l := List.finRange cap) fun i : Fin cap =>
    i.val < n && keys i < b
  have hget : ((List.finRange cap).takeWhile fun i => i.val < n && keys i < b)[i.val] = i := by
    rw [hfront.getElem hi, List.getElem_finRange]
    rfl
  have hmem := List.mem_takeWhile_imp (hget ▸ List.getElem_mem hi)
  simpa using hmem

theorem insertPos_le : insertPos n keys b ≤ n := by
  by_contra hlt
  have hcap : insertPos n keys b ≤ cap := by
    have h := (List.takeWhile_prefix (l := List.finRange cap) fun i : Fin cap =>
      i.val < n && keys i < b).length_le
    simpa [insertPos] using h
  have hn : (⟨n, by omega⟩ : Fin cap).val < insertPos n keys b := not_le.mp hlt
  exact absurd (lt_insertPos hn).1 (lt_irrefl n)

theorem not_lt_of_eq_insertPos {i : Fin cap} (hi : i.val = insertPos n keys b) :
    ¬(i.val < n ∧ keys i < b) := by
  intro h
  have hsplit := List.takeWhile_append_dropWhile (p := fun i : Fin cap => i.val < n && keys i < b)
    (l := List.finRange cap)
  unfold insertPos at hi
  have hget : (List.finRange cap)[i.val]? = some i := by
    rw [List.getElem?_eq_getElem (by simp), List.getElem_finRange]
    rfl
  cases hdrop : (List.finRange cap).dropWhile fun i => i.val < n && keys i < b with
  | nil =>
    rw [hdrop, List.append_nil] at hsplit
    have hlen := congrArg List.length hsplit
    rw [← hi, List.length_finRange] at hlen
    omega
  | cons j rest =>
    have hhead := List.head_dropWhile_not (fun i : Fin cap => i.val < n && keys i < b)
      (l := List.finRange cap) (by rw [hdrop]; simp)
    have hj : j = i := by
      rw [← hsplit, hdrop, List.getElem?_append_right (by omega), hi, Nat.sub_self,
        List.getElem?_cons_zero, Option.some.injEq] at hget
      exact hget
    simp only [hdrop, List.head_cons, hj] at hhead
    simp [h.1, h.2] at hhead

/-- The keys from the position on are above a key that is not among them. -/
theorem Ascending.lt_key (h : Ascending n keys) (habsent : ∀ i, i.val < n → keys i ≠ b)
    {i : Fin cap} (hpos : insertPos n keys b ≤ i.val) (hi : i.val < n) : b < keys i := by
  have hfirst : ∀ j : Fin cap, j.val = insertPos n keys b → j.val < n → b < keys j := by
    intro j hj hjn
    have hle : b ≤ keys j := UInt8.not_lt.mp fun hlt => not_lt_of_eq_insertPos hj ⟨hjn, hlt⟩
    exact UInt8.lt_of_le_of_ne hle fun heq => habsent j hjn heq.symm
  rcases hpos.eq_or_lt with heq | hlt
  · exact hfirst i heq.symm hi
  · have hbelow := h ⟨insertPos n keys b, by omega⟩ i hlt hi
    exact UInt8.lt_trans (hfirst ⟨insertPos n keys b, by omega⟩ rfl (by simp; omega)) hbelow

end InsertPos

section Shifts

variable {pos : ℕ} {x : α} {i : Fin cap}

theorem shiftIn_of_lt (h : i.val < pos) : shiftIn pos n x f i = f i := if_pos h

theorem shiftIn_of_eq (h : i.val = pos) : shiftIn pos n x f i = x := by
  rw [shiftIn, if_neg (by omega), if_pos h]

theorem shiftIn_of_gt (h : pos < i.val) (hi : i.val ≤ n) :
    shiftIn pos n x f i = f ⟨i.val - 1, by omega⟩ := by
  rw [shiftIn, if_neg (by omega), if_neg (by omega), if_pos hi]

theorem shiftIn_of_beyond (h : pos ≤ n) (hi : n < i.val) : shiftIn pos n x f i = f i := by
  rw [shiftIn, if_neg (by omega), if_neg (by omega), if_neg (by omega)]

theorem Ascending.shiftIn (h : Ascending n keys) (habsent : ∀ i, i.val < n → keys i ≠ b) :
    Ascending (n + 1) (shiftIn (insertPos n keys b) n b keys) := by
  intro i j hij hj
  have hpos : insertPos n keys b ≤ n := insertPos_le
  have hij' : i.val < j.val := hij
  rcases lt_trichotomy i.val (insertPos n keys b) with hi | hi | hi
  · rw [shiftIn_of_lt hi]
    rcases lt_trichotomy j.val (insertPos n keys b) with hj' | hj' | hj'
    · rw [shiftIn_of_lt hj']
      exact h i j hij (by omega)
    · rw [shiftIn_of_eq hj']
      exact (lt_insertPos hi).2
    · rw [shiftIn_of_gt hj' (by omega)]
      exact h i _ (show i.val < j.val - 1 by omega) (show j.val - 1 < n by omega)
  · rw [shiftIn_of_eq hi, shiftIn_of_gt (by omega) (by omega)]
    exact h.lt_key habsent (show _ ≤ j.val - 1 by omega) (show j.val - 1 < n by omega)
  · rw [shiftIn_of_gt hi (by omega), shiftIn_of_gt (by omega) (by omega)]
    exact h _ _ (show i.val - 1 < j.val - 1 by omega) (show j.val - 1 < n by omega)

/-- **Lookup after an insertion**: the new key has the new entry, the others keep theirs. -/
theorem map_findKey_shiftIn (h : Ascending n keys) (habsent : ∀ i, i.val < n → keys i ≠ b)
    (hn : n < cap) (x : α) (b' : UInt8) :
    (findKey (n + 1) (shiftIn (insertPos n keys b) n b keys) b').map
      (shiftIn (insertPos n keys b) n x f) = if b' = b then some x else (findKey n keys b').map f := by
  have hasc := h.shiftIn habsent
  have hpos : insertPos n keys b ≤ n := insertPos_le
  by_cases hb : b' = b
  · subst hb
    rw [if_pos rfl, map_findKey_eq_some hasc]
    exact ⟨⟨insertPos n keys b', by omega⟩, show insertPos n keys b' < n + 1 by omega,
      shiftIn_of_eq rfl, shiftIn_of_eq rfl⟩
  rw [if_neg hb]
  apply Option.ext
  intro y
  rw [map_findKey_eq_some hasc, map_findKey_eq_some h]
  constructor
  · rintro ⟨i, hi, hkey, hy⟩
    rcases lt_trichotomy i.val (insertPos n keys b) with hlt | heq | hgt
    · rw [shiftIn_of_lt hlt] at hkey hy
      exact ⟨i, by omega, hkey, hy⟩
    · rw [shiftIn_of_eq heq] at hkey
      exact absurd hkey.symm hb
    · rw [shiftIn_of_gt hgt (by omega)] at hkey hy
      exact ⟨_, show i.val - 1 < n by omega, hkey, hy⟩
  · rintro ⟨i, hi, hkey, hy⟩
    by_cases hlt : i.val < insertPos n keys b
    · exact ⟨i, by omega, (shiftIn_of_lt hlt).trans hkey, (shiftIn_of_lt hlt).trans hy⟩
    · have hgt : insertPos n keys b < i.val + 1 := by omega
      refine ⟨⟨i.val + 1, by omega⟩, Nat.succ_lt_succ hi, ?_, ?_⟩
      · rw [shiftIn_of_gt hgt (Nat.succ_le_of_lt hi)]
        exact hkey
      · rw [shiftIn_of_gt hgt (Nat.succ_le_of_lt hi)]
        exact hy

theorem shiftOut_of_lt (h : i.val < pos) : shiftOut pos n f i = f i := by
  rw [shiftOut, dif_neg (by omega)]

theorem shiftOut_of_le (h : pos ≤ i.val) (hi : i.val + 1 < n) (hn : n ≤ cap) :
    shiftOut pos n f i = f ⟨i.val + 1, by omega⟩ := by
  rw [shiftOut, dif_pos ⟨h, hi, by omega⟩]

theorem Ascending.shiftOut (h : Ascending n keys) (hn : n ≤ cap) (pos : ℕ) :
    Ascending (n - 1) (shiftOut pos n keys) := by
  intro i j hij hj
  have hij' : i.val < j.val := hij
  by_cases hi : i.val < pos
  · rw [shiftOut_of_lt hi]
    by_cases hj' : j.val < pos
    · rw [shiftOut_of_lt hj']
      exact h i j hij (by omega)
    · rw [shiftOut_of_le (by omega) (by omega) hn]
      exact h i _ (show i.val < j.val + 1 by omega) (show j.val + 1 < n by omega)
  · rw [shiftOut_of_le (by omega) (by omega) hn, shiftOut_of_le (by omega) (by omega) hn]
    exact h _ _ (show i.val + 1 < j.val + 1 by omega) (show j.val + 1 < n by omega)

/-- **Lookup after a deletion**: the key of the slot is gone, the others keep their entries. -/
theorem map_findKey_shiftOut (h : Ascending n keys) (hn : n ≤ cap) {p : Fin cap}
    (hp : findKey n keys b = some p) {g : Fin cap → α}
    (hg : ∀ i, i.val + 1 < n → g i = shiftOut p.val n f i) (b' : UInt8) :
    (findKey (n - 1) (shiftOut p.val n keys) b').map g =
      if b' = b then none else (findKey n keys b').map f := by
  have hasc := h.shiftOut hn p.val
  obtain ⟨hlt, hkey⟩ := (findKey_eq_some h).mp hp
  by_cases hb : b' = b
  · rw [if_pos hb, map_findKey_eq_none]
    intro i hi heq
    rw [hb, ← hkey] at heq
    by_cases hip : i.val < p.val
    · rw [shiftOut_of_lt hip] at heq
      exact absurd (h.inj (by omega) hlt heq) (Fin.ne_of_lt hip)
    · rw [shiftOut_of_le (by omega) (by omega) hn] at heq
      have hsame := congrArg Fin.val (h.inj (show i.val + 1 < n by omega) hlt heq)
      simp only at hsame
      omega
  rw [if_neg hb]
  apply Option.ext
  intro y
  rw [map_findKey_eq_some hasc, map_findKey_eq_some h]
  constructor
  -- What was behind the removed place has moved one to the front.
  · rintro ⟨i, hi, hkey', hy⟩
    rw [hg i (by omega)] at hy
    by_cases hip : i.val < p.val
    · rw [shiftOut_of_lt hip] at hkey' hy
      exact ⟨i, by omega, hkey', hy⟩
    · rw [shiftOut_of_le (by omega) (by omega) hn] at hkey' hy
      exact ⟨_, show i.val + 1 < n by omega, hkey', hy⟩
  · rintro ⟨i, hi, hkey', hy⟩
    rcases lt_trichotomy i.val p.val with hip | hip | hip
    · refine ⟨i, by omega, (shiftOut_of_lt hip).trans hkey', ?_⟩
      rw [hg i (by omega), shiftOut_of_lt hip]
      exact hy
    · obtain rfl : i = p := Fin.ext hip
      exact absurd (hkey'.symm.trans hkey) hb
    · have hsucc : (⟨i.val - 1 + 1, by omega⟩ : Fin cap) = i :=
        Fin.ext (show i.val - 1 + 1 = i.val by omega)
      have hlast : (⟨i.val - 1, by omega⟩ : Fin cap).val + 1 < n :=
        show i.val - 1 + 1 < n by omega
      have hge : p.val ≤ (⟨i.val - 1, by omega⟩ : Fin cap).val := show p.val ≤ i.val - 1 by omega
      refine ⟨⟨i.val - 1, by omega⟩, show i.val - 1 < n - 1 by omega, ?_, ?_⟩
      · rw [shiftOut_of_le hge hlast hn]
        exact (congrArg keys hsucc).trans hkey'
      · rw [hg _ hlast, shiftOut_of_le hge hlast hn]
        exact (congrArg f hsucc).trans hy

end Shifts

end Arkiv.Node
