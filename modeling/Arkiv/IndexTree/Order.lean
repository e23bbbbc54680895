import Mathlib
import Arkiv.IndexTree.Refinement

/-!
# The order of the keys

Every tree that a run leaves enumerates its keys in ascending order, also after
a key was lost or a counter of a 256-node has wrapped around. The invariant says
less than soundness: small nodes ascend, and a node that shrinks to a small one
counts at most the children that it has.

## Main definitions

- `Node.Child` — the children that are ever looked at
- `Node.Tidy`, `Node.Ordered` — the invariant of a node and of a tree
- `Node.Ascends` — ascending keys below a path
- `IndexTree.Enumerates` — the enumeration and the parts that the iterators select
- `IndexTree.ordered_run` — every run leaves an ordered tree
-/

namespace Arkiv

open ByteString

namespace Node

/-- The children that are ever looked at. -/
def Child : Node → Node → Prop
  | n4 _ _ n _ ch, c => ∃ i, i.val < n ∧ ch i = c
  | n16 _ _ n _ ch, c => ∃ i, i.val < n ∧ ch i = c
  | n48 _ _ _ _ ch, c => ∃ s, ch s = c
  | n256 _ _ _ ch, c => ∃ b, ch b = c
  | _, _ => False

/-- What the order needs of an inner node. The counter of a 48-node, which has eight bits, may lag
    behind its children after the one of a 256-node has wrapped around; a 256-node has `slack` more
    children than its counter says when that is low enough to shrink. -/
def Tidy (slack : ℕ) : Node → Prop
  | n4 _ _ n keys _ => n ≤ 4 ∧ Ascending n keys
  | n16 _ _ n keys _ => n ≤ 16 ∧ Ascending n keys
  | n48 _ _ n idx _ => slotsInRange idx = true ∧
    ∃ lag ≤ 48, n + lag ≡ (usedBytes idx).length [MOD 256]
  | n256 _ _ n ch => n < 65536 ∧ (n ≤ 48 → n + slack ≤ (fullBytes ch).length)
  | _ => True

/-- A tree whose inner nodes are tidy. -/
inductive Ordered : Node → Prop
  | empty : Ordered empty
  | leaf (sfx : Bytes) : Ordered (leaf sfx)
  | inner {node : Node} (hin : node.isInner = true) (htidy : node.Tidy 1)
      (hchild : ∀ c, node.Child c → Ordered c) : Ordered node

/-- Ascending keys that all go through a path. -/
structure Ascends (path : Bytes) (keys : List Bytes) : Prop where
  pairwise : keys.Pairwise (· < ·)
  through : ∀ k ∈ keys, path <+: k

variable {node : Node} {b : UInt8} {c : Node} {path : Bytes}

section Enumeration

theorem lt_of_branches {a : UInt8} (hab : a < b) {x y : Bytes} (hx : path ++ [a] <+: x)
    (hy : path ++ [b] <+: y) : x < y := by
  obtain ⟨s, rfl⟩ := hx
  obtain ⟨t, rfl⟩ := hy
  rw [List.append_assoc, List.append_assoc]
  exact List.append_left_lt (List.cons_lt_cons_iff.mpr (.inl hab))

theorem lt_of_branch {x : Bytes} (hx : path ++ [b] <+: x) : path < x := by
  obtain ⟨s, rfl⟩ := hx
  rw [List.append_assoc]
  conv_lhs => rw [← List.append_nil path]
  exact List.append_left_lt (List.nil_lt_cons _ _)

/-- What is collected below ascending bytes ascends. -/
theorem exists_mapM_ascends {ι : Type} {byte : ι → UInt8} {collect : ι → Option (List Bytes)}
    {l : List ι} (hl : l.Pairwise fun i j => byte i < byte j)
    (hall : ∀ i ∈ l, ∃ keys, collect i = some keys ∧ Ascends (path ++ [byte i]) keys) :
    ∃ below, l.mapM collect = some below ∧ below.flatten.Pairwise (· < ·) ∧
      ∀ k ∈ below.flatten, ∃ i ∈ l, path ++ [byte i] <+: k := by
  induction l with
  | nil => exact ⟨[], rfl, .nil, by simp⟩
  | cons i l ih =>
    obtain ⟨hfirst, hrest⟩ := List.pairwise_cons.mp hl
    obtain ⟨keys, hkeys, hasc⟩ := hall i List.mem_cons_self
    obtain ⟨below, hbelow, hpairwise, hthrough⟩ := ih hrest fun j hj =>
      hall j (List.mem_cons_of_mem _ hj)
    refine ⟨keys :: below, by rw [List.mapM_cons, hkeys, hbelow]; rfl, ?_, fun k hk => ?_⟩
    · rw [List.flatten_cons, List.pairwise_append]
      refine ⟨hasc.pairwise, hpairwise, fun x hx y hy => ?_⟩
      obtain ⟨j, hj, hy⟩ := hthrough y hy
      exact lt_of_branches (hfirst j hj) (hasc.through x hx) hy
    · rw [List.flatten_cons, List.mem_append] at hk
      cases hk with
      | inl hk => exact ⟨i, List.mem_cons_self, hasc.through k hk⟩
      | inr hk =>
        obtain ⟨j, hj, hk⟩ := hthrough k hk
        exact ⟨j, List.mem_cons_of_mem _ hj, hk⟩

/-- The key of the node itself comes first. -/
theorem ascends_node {ι : Type} (byte : ι → UInt8) {collect : ι → Option (List Bytes)} {l : List ι}
    (pfx : Bytes) (he : Bool) (hl : l.Pairwise fun i j => byte i < byte j)
    (hall : ∀ i ∈ l, ∃ keys, collect i = some keys ∧ Ascends (path ++ pfx ++ [byte i]) keys) :
    ∃ keys, ((l.mapM collect).map fun below =>
      (if he then [path ++ pfx] else []) ++ below.flatten) = some keys ∧ Ascends path keys := by
  obtain ⟨below, hbelow, hpairwise, hthrough⟩ := exists_mapM_ascends hl hall
  have hhere : ∀ x ∈ (if he then [path ++ pfx] else []), x = path ++ pfx := by
    intro x hx
    cases he with
    | false => cases hx
    | true => exact List.mem_singleton.mp hx
  refine ⟨_, by rw [hbelow]; rfl, ?_, fun k hk => ?_⟩
  · rw [List.pairwise_append]
    refine ⟨by cases he <;> simp, hpairwise, fun x hx y hy => ?_⟩
    obtain ⟨i, -, hy⟩ := hthrough y hy
    rw [hhere x hx]
    exact lt_of_branch hy
  · rw [List.mem_append] at hk
    cases hk with
    | inl hk =>
      rw [hhere k hk]
      exact List.prefix_append path pfx
    | inr hk =>
      obtain ⟨i, -, hk⟩ := hthrough k hk
      exact ((List.prefix_append path pfx).trans (List.prefix_append _ _)).trans hk

theorem Ascending.pairwise {cap n : ℕ} {keys : Fin cap → UInt8} (h : Ascending n keys) :
    ((List.finRange cap).filter (·.val < n)).Pairwise fun i j => keys i < keys j :=
  ((List.pairwise_lt_finRange cap).filter _).imp_of_mem fun {i j} _ hj hij =>
    h i j hij (by simpa using (List.mem_filter.mp hj).2)

/-- **An ordered tree is enumerated in order.** -/
theorem Ordered.collectAll (h : Ordered node) (path : Bytes) :
    ∃ keys, Node.collectAll node path = some keys ∧ Ascends path keys := by
  induction h generalizing path with
  | empty => exact ⟨[], rfl, .nil, by simp⟩
  | leaf sfx => exact ⟨[path ++ sfx], rfl, by simp, by simp⟩
  | @inner node hin htidy hchild ih =>
    cases node with
    | empty => cases hin
    | leaf sfx => cases hin
    | n4 pfx he n keys ch =>
      rw [Node.collectAll]
      exact ascends_node keys pfx he htidy.2.pairwise fun i hi =>
        ih (ch i) ⟨i, by simpa using hi, rfl⟩ _
    | n16 pfx he n keys ch =>
      rw [Node.collectAll]
      exact ascends_node keys pfx he htidy.2.pairwise fun i hi =>
        ih (ch i) ⟨i, by simpa using hi, rfl⟩ _
    -- The wide nodes are read byte by byte, whatever the slots.
    | n48 pfx he n idx ch =>
      rw [Node.collectAll]
      refine ascends_node id pfx he allBytes_pairwise fun b _ => ?_
      by_cases hnil : idx b = n48Nil
      · rw [if_pos hnil]
        exact ⟨[], rfl, .nil, by simp⟩
      · have hlt := slotsInRange_iff.mp htidy.1 b hnil
        rw [if_neg hnil, dif_pos hlt]
        exact ih _ ⟨_, rfl⟩ _
    | n256 pfx he n ch =>
      rw [Node.collectAll]
      exact ascends_node id pfx he allBytes_pairwise fun b _ => ih (ch b) ⟨b, rfl⟩ _

end Enumeration

section Counts

theorem length_fullBytes (ch : UInt8 → Node) :
    (fullBytes ch).length = (Finset.univ.filter fun b => (ch b).isEmpty = false).card := by
  rw [fullBytes, length_filter_allBytes]
  simp

theorem length_fullBytes_update {ch : UInt8 → Node} (h : c.isEmpty = (ch b).isEmpty) :
    (fullBytes (Function.update ch b c)).length = (fullBytes ch).length := by
  unfold fullBytes
  congr 2
  funext b'
  by_cases hb : b' = b
  · rw [hb, Function.update_self, h]
  · rw [Function.update_of_ne hb]

theorem length_fullBytes_add {ch : UInt8 → Node} (hb : (ch b).isEmpty = true)
    (hc : c.isEmpty = false) :
    (fullBytes (Function.update ch b c)).length = (fullBytes ch).length + 1 := by
  rw [length_fullBytes, length_fullBytes]
  have hset : (Finset.univ.filter fun x => (Function.update ch b c x).isEmpty = false) =
      insert b (Finset.univ.filter fun x => (ch x).isEmpty = false) := by
    ext x
    by_cases hx : x = b
    · simp [hx, hc]
    · simp [hx]
  rw [hset, Finset.card_insert_of_notMem (by simp [hb])]

theorem length_fullBytes_del {ch : UInt8 → Node} (hb : (ch b).isEmpty = false) :
    (fullBytes (Function.update ch b empty)).length + 1 = (fullBytes ch).length := by
  rw [← length_fullBytes_add (b := b) (by rw [Function.update_self]; rfl) hb, Function.update_idem,
    Function.update_eq_self]

end Counts

section Children

variable {node' : Node} {x : Node}

theorem child_of_nodeChild (h : node.nodeChild b = some c) : node.Child c := by
  cases node with
  | empty => cases h
  | leaf sfx => cases h
  | n4 pfx he n keys ch =>
    obtain ⟨i, hi, rfl⟩ := Option.map_eq_some_iff.mp h
    have hfound : i.val < n ∧ keys i = b := by simpa using List.find?_some hi
    exact ⟨i, hfound.1, rfl⟩
  | n16 pfx he n keys ch =>
    obtain ⟨i, hi, rfl⟩ := Option.map_eq_some_iff.mp h
    have hfound : i.val < n ∧ keys i = b := by simpa using List.find?_some hi
    exact ⟨i, hfound.1, rfl⟩
  | n48 pfx he n idx ch =>
    obtain ⟨s, -, rfl⟩ := nodeChild_n48_eq_some.mp h
    exact ⟨s, rfl⟩
  | n256 pfx he n ch =>
    obtain ⟨rfl, -⟩ := nodeChild_n256_eq_some.mp h
    exact ⟨b, rfl⟩

theorem update_cases {ι : Type} [DecidableEq ι] (f : ι → Node) (i j : ι) :
    Function.update f i c j = c ∨ Function.update f i c j = f j := by
  by_cases hj : j = i
  · exact .inl (by rw [hj, Function.update_self])
  · exact .inr (Function.update_of_ne hj c f)

/-- The children after one is replaced. -/
theorem child_setChild (h : (Node.setChild b c node).Child x) : x = c ∨ node.Child x := by
  cases node with
  | empty => cases h
  | leaf sfx => cases h
  | n4 pfx he n keys ch =>
    simp only [Node.setChild] at h
    split at h
    · obtain ⟨j, hj, rfl⟩ := h
      exact (update_cases ch _ j).imp_right fun heq => ⟨j, hj, heq.symm⟩
    · exact .inr h
  | n16 pfx he n keys ch =>
    simp only [Node.setChild] at h
    split at h
    · obtain ⟨j, hj, rfl⟩ := h
      exact (update_cases ch _ j).imp_right fun heq => ⟨j, hj, heq.symm⟩
    · exact .inr h
  | n48 pfx he n idx ch =>
    simp only [Node.setChild] at h
    split at h
    · obtain ⟨j, rfl⟩ := h
      exact (update_cases ch _ j).imp_right fun heq => ⟨j, heq.symm⟩
    · exact .inr h
  | n256 pfx he n ch =>
    obtain ⟨j, rfl⟩ := h
    exact (update_cases ch _ j).imp_right fun heq => ⟨j, heq.symm⟩

theorem shiftIn_cases {cap pos n : ℕ} {f : Fin cap → Node} (hpos : pos ≤ n) {i : Fin cap}
    (hi : i.val < n + 1) : shiftIn pos n c f i = c ∨ ∃ j : Fin cap, j.val < n ∧ f j = shiftIn pos n c f i := by
  rcases lt_trichotomy i.val pos with hlt | heq | hgt
  · exact .inr ⟨i, by omega, (shiftIn_of_lt hlt).symm⟩
  · exact .inl (shiftIn_of_eq heq)
  · exact .inr ⟨_, show i.val - 1 < n by omega, (shiftIn_of_gt hgt (by omega)).symm⟩

theorem child_nodeAddChild (h : node.nodeAddChild b c = some node') (hx : node'.Child x) :
    x = c ∨ node.Child x := by
  cases node with
  | empty =>
    obtain rfl := Option.some.inj h
    cases hx
  | leaf sfx =>
    obtain rfl := Option.some.inj h
    cases hx
  | n4 pfx he n keys ch =>
    rw [nodeAddChild] at h
    split at h
    · obtain rfl := Option.some.inj h
      obtain ⟨i, hi, rfl⟩ := hx
      exact shiftIn_cases insertPos_le hi
    · cases h
  | n16 pfx he n keys ch =>
    rw [nodeAddChild] at h
    split at h
    · obtain rfl := Option.some.inj h
      obtain ⟨i, hi, rfl⟩ := hx
      exact shiftIn_cases insertPos_le hi
    · cases h
  | n48 pfx he n idx ch =>
    obtain ⟨s, -, rfl⟩ := Option.map_eq_some_iff.mp h
    obtain ⟨j, rfl⟩ := hx
    exact (update_cases ch s j).imp_right fun heq => ⟨j, heq.symm⟩
  | n256 pfx he n ch =>
    obtain rfl := Option.some.inj h
    obtain ⟨j, rfl⟩ := hx
    exact (update_cases ch b j).imp_right fun heq => ⟨j, heq.symm⟩

theorem child_nodeMaybeGrow (h : node.nodeMaybeGrow = some node') (hx : node'.Child x) :
    x = empty ∨ node.Child x := by
  cases node with
  | empty =>
    obtain rfl := Option.some.inj h
    exact .inr hx
  | leaf sfx =>
    obtain rfl := Option.some.inj h
    exact .inr hx
  -- The first `n` children are copied, what is behind them is empty.
  | n4 pfx he n keys ch =>
    rw [nodeMaybeGrow] at h
    split at h
    · next hn =>
      obtain rfl := Option.some.inj h
      obtain ⟨i, hi, rfl⟩ := hx
      have h4 : i.val < 4 := by omega
      refine .inr ⟨⟨i, h4⟩, hi, ?_⟩
      dsimp only
      rw [dif_pos h4]
    · obtain rfl := Option.some.inj h
      exact .inr hx
  | n16 pfx he n keys ch =>
    rw [nodeMaybeGrow] at h
    split at h
    · obtain rfl := Option.some.inj h
      obtain ⟨s, rfl⟩ := hx
      by_cases hs : s.val < n ∧ s.val < 16
      · refine .inr ⟨⟨s, hs.2⟩, hs.1, ?_⟩
        dsimp only
        rw [dif_pos hs]
      · exact .inl (dif_neg hs)
    · obtain rfl := Option.some.inj h
      exact .inr hx
  | n48 pfx he n idx ch =>
    rw [nodeMaybeGrow] at h
    split at h
    · unfold n48ToN256 at h
      split at h
      · obtain rfl := Option.some.inj h
        obtain ⟨b, rfl⟩ := hx
        dsimp only
        split
        · exact .inr ⟨_, rfl⟩
        · exact .inl rfl
      · cases h
    · obtain rfl := Option.some.inj h
      exact .inr hx
  | n256 pfx he n ch =>
    obtain rfl := Option.some.inj h
    exact .inr hx

theorem shiftOut_cases {cap pos n : ℕ} {f : Fin cap → Node} {i : Fin cap} (hi : i.val < n - 1) :
    ∃ j : Fin cap, j.val < n ∧ f j = shiftOut pos n f i := by
  unfold shiftOut
  split
  · next h => exact ⟨_, h.2.1, rfl⟩
  · exact ⟨i, by omega, rfl⟩

theorem child_nodeDelChild (h : node.nodeDelChild b = some node') (hx : node'.Child x) :
    x = empty ∨ node.Child x := by
  cases node with
  | empty =>
    obtain rfl := Option.some.inj h
    exact .inr hx
  | leaf sfx =>
    obtain rfl := Option.some.inj h
    exact .inr hx
  | n4 pfx he n keys ch =>
    rw [nodeDelChild] at h
    split at h
    · obtain rfl := Option.some.inj h
      exact .inr hx
    · obtain rfl := Option.some.inj h
      obtain ⟨i, hi, rfl⟩ := hx
      dsimp only
      split
      · exact .inl rfl
      · exact .inr (shiftOut_cases hi)
  | n16 pfx he n keys ch =>
    rw [nodeDelChild] at h
    split at h
    · obtain rfl := Option.some.inj h
      exact .inr hx
    · obtain rfl := Option.some.inj h
      obtain ⟨i, hi, rfl⟩ := hx
      dsimp only
      split
      · exact .inl rfl
      · exact .inr (shiftOut_cases hi)
  | n48 pfx he n idx ch =>
    rw [nodeDelChild] at h
    split_ifs at h
    · obtain rfl := Option.some.inj h
      exact .inr hx
    · obtain rfl := Option.some.inj h
      obtain ⟨j, rfl⟩ := hx
      exact (update_cases ch _ j).imp_right fun heq => ⟨j, heq.symm⟩
  | n256 pfx he n ch =>
    rw [nodeDelChild] at h
    split at h
    · obtain rfl := Option.some.inj h
      exact .inr hx
    · obtain rfl := Option.some.inj h
      obtain ⟨j, rfl⟩ := hx
      exact (update_cases ch b j).imp_right fun heq => ⟨j, heq.symm⟩

end Children

section Tidy

variable {node' g : Node} {slack : ℕ}

theorem Tidy.indexInRange (h : node.Tidy slack) : node.IndexInRange := by
  cases node with
  | n48 pfx he n idx ch =>
    exact slotsInRange_iff.mp h.1
  | _ => trivial

theorem Tidy.setPrefix (h : node.Tidy slack) (pfx : Bytes) : (node.setPrefix pfx).Tidy slack := by
  cases node <;> exact h

theorem Tidy.setHasEnd (h : node.Tidy slack) (he : Bool) : (node.setHasEnd he).Tidy slack := by
  cases node <;> exact h

/-- A child that is replaced keeps the counters right, unless it becomes empty. -/
theorem Tidy.setChild {c₀ : Node} (h : node.Tidy slack) (hc : node.nodeChild b = some c₀)
    (hempty : c.isEmpty = true → c₀.isEmpty = true) : (Node.setChild b c node).Tidy slack := by
  cases node with
  | empty => cases hc
  | leaf sfx => cases hc
  | n4 pfx he n keys ch =>
    simp only [Node.setChild]
    split <;> exact h
  | n16 pfx he n keys ch =>
    simp only [Node.setChild]
    split <;> exact h
  | n48 pfx he n idx ch =>
    simp only [Node.setChild]
    split <;> exact h
  | n256 pfx he n ch =>
    obtain ⟨rfl, hfull⟩ := nodeChild_n256_eq_some.mp hc
    have hfull' : c.isEmpty = false := by
      by_contra hne
      rw [hempty (by simpa using hne)] at hfull
      cases hfull
    refine ⟨h.1, fun hn => ?_⟩
    rw [length_fullBytes_update (hfull'.trans hfull.symm)]
    exact h.2 hn

/-- An empty child that goes: a 256-node keeps its counter and has one child less. -/
theorem Tidy.del {c₀ : Node} (h : node.Tidy (slack + 1)) (hc : node.nodeChild b = some c₀)
    (hdel : (Node.setChild b empty node).nodeDelChild b = some node') : node'.Tidy slack := by
  cases node with
  | empty => cases hc
  | leaf sfx => cases hc
  | n4 pfx he n keys ch =>
    obtain ⟨i, hi, -⟩ := Option.map_eq_some_iff.mp hc
    simp only [Node.setChild, nodeDelChild, hi, Option.some.injEq] at hdel
    subst hdel
    exact ⟨(Nat.sub_le n 1).trans h.1, h.2.shiftOut h.1 i.val⟩
  | n16 pfx he n keys ch =>
    obtain ⟨i, hi, -⟩ := Option.map_eq_some_iff.mp hc
    simp only [Node.setChild, nodeDelChild, hi, Option.some.injEq] at hdel
    subst hdel
    exact ⟨(Nat.sub_le n 1).trans h.1, h.2.shiftOut h.1 i.val⟩
  | n48 pfx he n idx ch =>
    obtain ⟨s, hs, -⟩ := nodeChild_n48_eq_some.mp hc
    have hval : (idx b).toNat = s.val := by rw [hs, toNat_ofNat_slot]
    have hlt : (idx b).toNat < 48 := by have := s.isLt; omega
    have hne : idx b ≠ n48Nil := by rw [hs]; exact ofNat_slot_ne_nil s
    rw [setChild_n48 hs, nodeDelChild, if_neg hne, dif_pos hlt] at hdel
    obtain rfl := Option.some.inj hdel
    -- The counter and the used bytes both go down by one, so the lag between them stays.
    obtain ⟨hrange, lag, hlag, hcount⟩ := h
    refine ⟨?_, lag, hlag, ?_⟩
    · refine slotsInRange_iff.mpr fun b' hb' => ?_
      by_cases hb : b' = b
      · simp [hb] at hb'
      · rw [Function.update_of_ne hb] at hb' ⊢
        exact slotsInRange_iff.mp hrange b' hb'
    · have hused := length_usedBytes_del hne
      unfold Nat.ModEq at hcount ⊢
      omega
  | n256 pfx he n ch =>
    obtain ⟨rfl, hfull⟩ := nodeChild_n256_eq_some.mp hc
    simp only [Node.setChild, nodeDelChild, Function.update_self, isEmpty, if_true,
      Option.some.injEq] at hdel
    subst hdel
    refine ⟨h.1, fun hn => ?_⟩
    have hless := length_fullBytes_del hfull
    have hcount := h.2 hn
    omega

theorem tidy_n48_add {pfx : Bytes} {he : Bool} {n : ℕ} {idx : UInt8 → UInt8} {ch : Fin 48 → Node}
    (h : (n48 pfx he n idx ch).Tidy slack) (hnil : idx b = n48Nil)
    (hadd : (n48 pfx he n idx ch).nodeAddChild b c = some node') : node'.Tidy slack := by
  obtain ⟨hrange, lag, hlag, hcount⟩ := h
  obtain ⟨s, -, rfl⟩ := Option.map_eq_some_iff.mp hadd
  refine ⟨?_, lag, hlag, ?_⟩
  · refine slotsInRange_iff.mpr fun b' hb' => ?_
    by_cases hb : b' = b
    · rw [hb, Function.update_self, toNat_ofNat_slot]
      exact s.isLt
    · rw [Function.update_of_ne hb] at hb' ⊢
      exact slotsInRange_iff.mp hrange b' hb'
  · have hused := length_usedBytes_add hnil (ofNat_slot_ne_nil s)
    unfold Nat.ModEq at hcount ⊢
    omega

theorem tidy_small_add {cap n : ℕ} {keys : Fin cap → UInt8} (hn : n < cap) (h : Ascending n keys)
    (hnone : findKey n keys b = none) :
    n + 1 ≤ cap ∧ Ascending (n + 1) (shiftIn (insertPos n keys b) n b keys) :=
  ⟨hn, h.shiftIn (findKey_eq_none.mp hnone)⟩

/-- A full 4-node becomes a 16-node with the same keys. -/
theorem tidy_n4_add {pfx : Bytes} {he : Bool} {n : ℕ} {keys : Fin 4 → UInt8} {ch : Fin 4 → Node}
    (h : (n4 pfx he n keys ch).Tidy 1) (hnone : findKey n keys b = none)
    (hgrow : (n4 pfx he n keys ch).nodeMaybeGrow = some g)
    (hadd : g.nodeAddChild b c = some node') : node'.Tidy 1 := by
  rw [nodeMaybeGrow] at hgrow
  split at hgrow
  · next hn =>
    obtain rfl := Option.some.inj hgrow
    rw [n4ToN16, nodeAddChild, if_pos (by omega)] at hadd
    obtain rfl := Option.some.inj hadd
    have hsame : ∀ i : Fin 16, i.val < n → ∃ j : Fin 4, j.val = i.val ∧
        (if hlt : i.val < n ∧ i.val < 4 then keys ⟨i, hlt.2⟩ else 0) = keys j := by
      intro i hi
      have h4 : i.val < 4 := by omega
      exact ⟨⟨i, h4⟩, rfl, dif_pos ⟨hi, h4⟩⟩
    exact tidy_small_add (by omega) (h.2.copy hsame) (findKey_copy hnone hsame)
  · next hn =>
    obtain rfl := Option.some.inj hgrow
    have hlt : n < 4 := by have := h.1; omega
    rw [nodeAddChild, if_pos hlt] at hadd
    obtain rfl := Option.some.inj hadd
    exact tidy_small_add hlt h.2 hnone

/-- A full 16-node becomes a 48-node whose used bytes are its keys. -/
theorem tidy_n16_add {pfx : Bytes} {he : Bool} {n : ℕ} {keys : Fin 16 → UInt8} {ch : Fin 16 → Node}
    (h : (n16 pfx he n keys ch).Tidy 1) (hnone : findKey n keys b = none)
    (hgrow : (n16 pfx he n keys ch).nodeMaybeGrow = some g)
    (hadd : g.nodeAddChild b c = some node') : node'.Tidy 1 := by
  rw [nodeMaybeGrow] at hgrow
  split at hgrow
  · next hn =>
    obtain rfl := Option.some.inj hgrow
    rw [n16ToN48_eq h.2] at hadd
    refine tidy_n48_add ⟨?_, 0, by omega, ?_⟩ (slotOfKey_eq_nil.mpr hnone) hadd
    · refine slotsInRange_iff.mpr fun b' hb' => ?_
      rw [ne_eq, slotOfKey_eq_nil] at hb'
      obtain ⟨i, hi⟩ := Option.ne_none_iff_exists'.mp hb'
      have hlt : i.val < 48 := lt_trans i.isLt (by decide)
      rwa [slotOfKey, hi, Option.elim_some,
        UInt8.toNat_ofNat_of_lt' (lt_trans i.isLt (by decide))]
    · rw [length_usedBytes_slotOfKey h.1 h.2]
      exact rfl
  · next hn =>
    obtain rfl := Option.some.inj hgrow
    have hlt : n < 16 := by have := h.1; omega
    rw [nodeAddChild, if_pos hlt] at hadd
    obtain rfl := Option.some.inj hadd
    exact tidy_small_add hlt h.2 hnone

/-- A full 48-node becomes a 256-node with too many children to shrink. -/
theorem tidy_n48_grown {pfx : Bytes} {he : Bool} {n : ℕ} {idx : UInt8 → UInt8} {ch : Fin 48 → Node}
    (h : (n48 pfx he n idx ch).Tidy 1) (hnil : idx b = n48Nil)
    (hgrow : (n48 pfx he n idx ch).nodeMaybeGrow = some g)
    (hadd : g.nodeAddChild b c = some node') : node'.Tidy 1 := by
  rw [nodeMaybeGrow] at hgrow
  split at hgrow
  · next hn =>
    unfold n48ToN256 at hgrow
    split at hgrow
    · obtain rfl := Option.some.inj hgrow
      obtain rfl := Option.some.inj hadd
      exact ⟨by omega, fun hle => by omega⟩
    · cases hgrow
  · obtain rfl := Option.some.inj hgrow
    exact tidy_n48_add h hnil hadd

/-- The counter of sixteen bits may wrap around to zero, but then the new child is there. -/
theorem tidy_n256_add {pfx : Bytes} {he : Bool} {n : ℕ} {ch : UInt8 → Node}
    (h : (n256 pfx he n ch).Tidy 1) (hfree : (ch b).isEmpty = true) (hc : c.isEmpty = false) :
    (n256 pfx he ((n + 1) % 65536) (Function.update ch b c)).Tidy 1 := by
  obtain ⟨hn, hcount⟩ := h
  refine ⟨Nat.mod_lt _ (by decide), fun hlow => ?_⟩
  rw [length_fullBytes_add hfree hc]
  by_cases hwrap : n + 1 < 65536
  · rw [Nat.mod_eq_of_lt hwrap] at hlow ⊢
    have := hcount (by omega)
    omega
  · obtain rfl : n = 65535 := by omega
    omega

/-- A child more: the node has grown before, so it has room. -/
theorem Tidy.add (h : node.Tidy 1) (hin : node.isInner = true) (hnone : node.nodeChild b = none)
    (hc : c.isEmpty = false) (hgrow : node.nodeMaybeGrow = some g)
    (hadd : g.nodeAddChild b c = some node') : node'.Tidy 1 := by
  cases node with
  | empty => cases hin
  | leaf sfx => cases hin
  | n4 pfx he n keys ch => exact tidy_n4_add h (Option.map_eq_none_iff.mp hnone) hgrow hadd
  | n16 pfx he n keys ch => exact tidy_n16_add h (Option.map_eq_none_iff.mp hnone) hgrow hadd
  | n48 pfx he n idx ch =>
    have hnil : idx b = n48Nil := by
      by_contra hne
      have hlt := Tidy.indexInRange h b hne
      simp [nodeChild, hlt] at hnone
    exact tidy_n48_grown h hnil hgrow hadd
  | n256 pfx he n ch =>
    obtain rfl := Option.some.inj hgrow
    obtain rfl := Option.some.inj hadd
    have hfree : (ch b).isEmpty = true := by
      by_contra hne
      simp [nodeChild, hne] at hnone
    exact tidy_n256_add h hfree hc

theorem Tidy.relax (h : node.Tidy 1) : node.Tidy 0 := by
  cases node with
  | n256 pfx he n ch => exact ⟨h.1, fun hn => by have := h.2 hn; omega⟩
  | _ => exact h

end Tidy

section Ordered

variable {node' : Node} {key : Bytes} {slack : ℕ}

theorem Ordered.setPrefix (h : Ordered node) (pfx : Bytes) : Ordered (node.setPrefix pfx) := by
  cases h with
  | empty => exact .empty
  | leaf sfx => exact .leaf sfx
  | inner hin htidy hchild =>
    refine .inner (by rw [isInner_setPrefix, hin]) (htidy.setPrefix pfx) fun c hc => hchild c ?_
    cases node <;> exact hc

theorem Ordered.setHasEnd (h : Ordered node) (he : Bool) : Ordered (node.setHasEnd he) := by
  cases h with
  | empty => exact .empty
  | leaf sfx => exact .leaf sfx
  | inner hin htidy hchild =>
    refine .inner (by rw [isInner_setHasEnd, hin]) (htidy.setHasEnd he) fun c hc => hchild c ?_
    cases node <;> exact hc

theorem ordered_prependInto {p : Bytes} : Ordered (prependInto p b c) ↔ Ordered c := by
  cases hin : c.isInner with
  | true =>
    have heq : prependInto p b c = c.setPrefix (p ++ b :: c.nodePrefix) := by
      cases c <;> first | rfl | cases hin
    rw [heq]
    refine ⟨fun h => ?_, fun h => h.setPrefix _⟩
    have h' := h.setPrefix c.nodePrefix
    rwa [setPrefix_setPrefix, setPrefix_nodePrefix] at h'
  | false =>
    cases c with
    | empty => exact Iff.rfl
    | leaf sfx => exact ⟨fun _ => .leaf _, fun _ => .leaf _⟩
    | _ => cases hin

theorem Ordered.inner_iff (hin : node.isInner = true) :
    Ordered node ↔ node.Tidy 1 ∧ ∀ c, node.Child c → Ordered c := by
  constructor
  · intro h
    cases h with
    | empty => cases hin
    | leaf sfx => cases hin
    | inner _ htidy hchild => exact ⟨htidy, hchild⟩
  · rintro ⟨htidy, hchild⟩
    exact .inner hin htidy hchild

/-- A fresh node has the listed children and no others. -/
theorem Fork.exists_kid {pfx : Bytes} {he : Bool} {kids : List (UInt8 × Node)}
    (h : Fork pfx he kids node) (hc : node.Child c) : ∃ b, (b, c) ∈ kids := by
  have hlookup := h.child
  have hsound := h.sound
  obtain ⟨keys, ch, rfl⟩ := h.shape
  obtain ⟨i, hi, rfl⟩ := hc
  have hfound : (n4 pfx he kids.length keys ch).nodeChild (keys i) = some (ch i) :=
    (map_findKey_eq_some (SmallSound.ascending hsound)).mpr ⟨i, hi, rfl, rfl⟩
  rw [hlookup] at hfound
  obtain ⟨l₁, l₂, rfl, -⟩ := List.lookup_eq_some_iff.mp hfound
  exact ⟨keys i, by simp⟩

theorem Fork.ordered {pfx : Bytes} {he : Bool} {kids : List (UInt8 × Node)}
    (h : Fork pfx he kids node) (hkids : ∀ kid ∈ kids, Ordered kid.2) : Ordered node := by
  have hkid : ∀ c, node.Child c → Ordered c := by
    intro c hc
    obtain ⟨b, hb⟩ := h.exists_kid hc
    exact hkids (b, c) hb
  have hsound := h.sound
  obtain ⟨keys, ch, rfl⟩ := h.shape
  exact .inner rfl ⟨SmallSound.le hsound, SmallSound.ascending hsound⟩ hkid

section Shrinking

variable {pfx : Bytes} {he : Bool} {n : ℕ}

/-- The counter of a 48-node that shrinks lags behind, so there are keys as far as it goes. -/
theorem ordered_n48ToN16 {idx : UInt8 → UInt8} {ch : Fin 48 → Node}
    (htidy : (n48 pfx he n idx ch).Tidy slack) (hchild : ∀ s, Ordered (ch s)) (hn : n ≤ 16)
    (h : n48ToN16 pfx he n idx ch = some node') : Ordered node' := by
  unfold n48ToN16 at h
  dsimp only at h
  split at h
  swap
  · cases h
  next hfits =>
  obtain rfl := Option.some.inj h
  obtain ⟨-, lag, hlag, hcount⟩ := htidy
  have hlen : (usedBytes idx).length ≤ 16 := by
    rw [Bool.and_eq_true, decide_eq_true_eq] at hfits
    exact hfits.2
  have hle : n ≤ (usedBytes idx).length := by
    unfold Nat.ModEq at hcount
    omega
  refine .inner rfl ⟨hn, fun i j hij hj => ?_⟩ ?_
  · have hij' : i.val < j.val := hij
    dsimp only
    rw [List.getD_eq_getElem _ _ (by omega), List.getD_eq_getElem _ _ (by omega)]
    exact List.pairwise_iff_getElem.mp (usedBytes_pairwise idx) _ _ _ _ hij'
  · rintro c ⟨i, hi, rfl⟩
    dsimp only
    split
    · exact .empty
    · split
      · exact .empty
      · split
        · exact hchild _
        · exact .empty

/-- The used bytes of a 48-node that was larger are the bytes with a child. -/
theorem usedBytes_idxOf {ch : UInt8 → Node} (hfits : (fullBytes ch).length ≤ 48) :
    usedBytes (fun b => if b ∈ fullBytes ch then UInt8.ofNat ((fullBytes ch).idxOf b) else n48Nil) =
      fullBytes ch := by
  conv_rhs => unfold fullBytes
  unfold usedBytes
  refine List.filter_congr fun b _ => ?_
  dsimp only
  have hmem : b ∈ fullBytes ch ↔ (ch b).isEmpty = false := by
    simp [fullBytes, mem_allBytes]
  by_cases hb : b ∈ fullBytes ch
  · have hlt := List.idxOf_lt_length_of_mem hb
    rw [if_pos hb, hmem.mp hb]
    simpa using ofNat_ne_nil (i := (fullBytes ch).idxOf b) (by omega)
  · rw [if_neg hb]
    simpa [hmem] using hb

theorem ordered_n256ToN48 {ch : UInt8 → Node} (htidy : (n256 pfx he n ch).Tidy 0)
    (hchild : ∀ b, Ordered (ch b)) (hn : n ≤ 48) (h : n256ToN48 pfx he n ch = some node') :
    Ordered node' := by
  unfold n256ToN48 at h
  dsimp only at h
  split at h
  swap
  · cases h
  next hfits =>
  obtain rfl := Option.some.inj h
  have hcount := htidy.2 hn
  refine .inner rfl ⟨?_, (fullBytes ch).length - n, by omega, ?_⟩ ?_
  · refine slotsInRange_iff.mpr fun b hne => ?_
    split at hne
    · next hb =>
      have hlt : (fullBytes ch).idxOf b < 48 :=
        lt_of_lt_of_le (List.idxOf_lt_length_of_mem hb) hfits
      rwa [if_pos hb, UInt8.toNat_ofNat_of_lt' (lt_trans hlt (by decide))]
    · exact absurd rfl hne
  · rw [usedBytes_idxOf hfits, Nat.mod_eq_of_lt (show n < 256 by omega)]
    unfold Nat.ModEq
    omega
  · rintro c ⟨s, rfl⟩
    dsimp only
    cases (fullBytes ch)[s.val]? with
    | none => exact .empty
    | some b => exact hchild b

/-- What shrinking leaves of a tidy node with ordered children. -/
theorem ordered_nodeMaybeShrink (hin : node.isInner = true) (htidy : node.Tidy 0)
    (hchild : ∀ c, node.Child c → Ordered c) (h : node.nodeMaybeShrink = some node') :
    Ordered node' := by
  unfold nodeMaybeShrink at h
  split at h
  · obtain rfl := Option.some.inj h
    exact .empty
  cases node with
  | empty => cases hin
  | leaf sfx => cases hin
  | n4 pfx he n keys ch =>
    simp only at h
    split at h
    -- A single child without an end mark above it is merged with its parent.
    · next hn =>
      obtain rfl := Option.some.inj h
      exact ordered_prependInto.mpr (hchild _ ⟨0, by simp [hn.1], rfl⟩)
    · obtain rfl := Option.some.inj h
      exact .inner rfl htidy hchild
  | n16 pfx he n keys ch =>
    simp only at h
    split at h
    · next hn =>
      obtain rfl := Option.some.inj h
      refine .inner rfl ⟨hn, htidy.2.copy fun i hi => ⟨⟨i.val, by omega⟩, rfl, if_pos hi⟩⟩ ?_
      rintro c ⟨i, hi, rfl⟩
      dsimp only
      rw [if_pos hi]
      exact hchild _ ⟨_, hi, rfl⟩
    · obtain rfl := Option.some.inj h
      exact .inner rfl htidy hchild
  | n48 pfx he n idx ch =>
    simp only at h
    split at h
    · next hn => exact ordered_n48ToN16 htidy (fun s => hchild _ ⟨s, rfl⟩) hn h
    · obtain rfl := Option.some.inj h
      exact .inner rfl htidy hchild
  | n256 pfx he n ch =>
    simp only at h
    split at h
    · next hn => exact ordered_n256ToN48 htidy (fun b => hchild _ ⟨b, rfl⟩) hn h
    · next hn =>
      obtain rfl := Option.some.inj h
      exact .inner rfl ⟨htidy.1, fun hle => absurd hle hn⟩ hchild

end Shrinking

section Kinds

variable {g : Node}

theorem isInner_setChild : (Node.setChild b c node).isInner = node.isInner := by
  cases node <;> simp only [Node.setChild]
  all_goals first | rfl | (split <;> rfl)

theorem isInner_nodeMaybeGrow (hin : node.isInner = true) (h : node.nodeMaybeGrow = some g) :
    g.isInner = true := by
  cases node with
  | empty => cases hin
  | leaf sfx => cases hin
  | n48 pfx he n idx ch =>
    rw [nodeMaybeGrow] at h
    split at h
    · unfold n48ToN256 at h
      split at h
      · obtain rfl := Option.some.inj h
        rfl
      · cases h
    · obtain rfl := Option.some.inj h
      rfl
  | n256 pfx he n ch =>
    obtain rfl := Option.some.inj h
    rfl
  | _ =>
    rw [nodeMaybeGrow] at h
    split at h <;> (obtain rfl := Option.some.inj h; rfl)

theorem isInner_nodeAddChild (hin : node.isInner = true) (h : node.nodeAddChild b c = some g) :
    g.isInner = true := by
  cases node with
  | empty => cases hin
  | leaf sfx => cases hin
  | n48 pfx he n idx ch =>
    obtain ⟨s, -, rfl⟩ := Option.map_eq_some_iff.mp h
    rfl
  | n256 pfx he n ch =>
    obtain rfl := Option.some.inj h
    rfl
  | _ =>
    rw [nodeAddChild] at h
    split at h
    · obtain rfl := Option.some.inj h
      rfl
    · cases h

theorem isInner_nodeDelChild (hin : node.isInner = true) (h : node.nodeDelChild b = some g) :
    g.isInner = true := by
  cases node with
  | empty => cases hin
  | leaf sfx => cases hin
  | n48 pfx he n idx ch =>
    rw [nodeDelChild] at h
    split_ifs at h
    all_goals
      obtain rfl := Option.some.inj h
      rfl
  | _ =>
    rw [nodeDelChild] at h
    split at h <;> (obtain rfl := Option.some.inj h; rfl)

end Kinds

/-- An insertion that succeeds is one of the cases. -/
theorem Ordered.inserts (h : Ordered node) {new : Bool}
    (heq : insertNode node key = some (node', new)) : Inserts node key node' new := by
  induction h generalizing key node' new with
  | empty =>
    obtain ⟨rfl, rfl⟩ := Prod.mk.inj (Option.some.inj heq)
    exact .fresh key
  | leaf sfx =>
    obtain ⟨node'', new', heq', hinserts⟩ := exists_insertLeaf sfx key
    rw [insertNode, heq'] at heq
    obtain ⟨rfl, rfl⟩ := Prod.mk.inj (Option.some.inj heq)
    exact hinserts
  | @inner node hin htidy hchild ih =>
    rw [insertNode_eq hin htidy.indexInRange] at heq
    rcases commonPrefix_cases node.nodePrefix key with ⟨t, rfl⟩ | ⟨q, b, s, hpfx, hcommon, hkey⟩
    swap
    -- The key leaves the prefix inside, and the node is split there.
    · obtain ⟨node'', new', heq', hinserts⟩ := exists_splitPrefix hin hpfx hkey
      unfold insertInner at heq
      dsimp only at heq
      rw [hcommon, hpfx, if_pos (by simp), heq'] at heq
      obtain ⟨rfl, rfl⟩ := Prod.mk.inj (Option.some.inj heq)
      exact hinserts
    rw [insertInner_through] at heq
    -- The key goes through the prefix: it ends here or goes on below a byte.
    cases t with
    | nil =>
      rw [List.append_nil]
      cases hend : node.nodeHasEnd with
      | true =>
        simp only [hend, if_true] at heq
        obtain ⟨rfl, rfl⟩ := Prod.mk.inj (Option.some.inj heq)
        exact .endOld hin hend
      | false =>
        simp only [hend, Bool.false_eq_true, if_false] at heq
        obtain ⟨rfl, rfl⟩ := Prod.mk.inj (Option.some.inj heq)
        exact .endNew hin hend
    | cons b rest =>
      dsimp only at heq
      unfold insertChild at heq
      cases hc : node.nodeChild b with
      | some c =>
        simp only [hc, Option.map_some] at heq
        obtain ⟨⟨c', new'⟩, hrec, hpair⟩ := Option.map_eq_some_iff.mp heq
        obtain ⟨rfl, rfl⟩ := Prod.mk.inj hpair
        exact .under hc (ih c (child_of_nodeChild hc) hrec)
      | none =>
        simp only [hc, Option.map_none] at heq
        obtain ⟨g, hgrow, hmap⟩ := Option.bind_eq_some_iff.mp heq
        obtain ⟨node'', hadd, hpair⟩ := Option.map_eq_some_iff.mp hmap
        obtain ⟨rfl, rfl⟩ := Prod.mk.inj hpair
        exact .add hin hc hgrow hadd

theorem Inserts.isEmpty {new : Bool} (h : Inserts node key node' new) : node'.isEmpty = false := by
  cases h with
  | fresh => rfl
  | present => rfl
  | extend hfork =>
    obtain ⟨keys, ch, rfl⟩ := hfork.shape
    rfl
  | above hfork =>
    obtain ⟨keys, ch, rfl⟩ := hfork.shape
    rfl
  | diverge hne hfork =>
    obtain ⟨keys, ch, rfl⟩ := hfork.shape
    rfl
  | endOld hin => exact isEmpty_of_isInner hin
  | endNew hin => exact isEmpty_of_isInner (by rw [isInner_setHasEnd, hin])
  | under hc => exact isEmpty_of_isInner (by rw [isInner_setChild, isInner_of_nodeChild hc])
  | add hin hnone hgrow hadd =>
    exact isEmpty_of_isInner (isInner_nodeAddChild (isInner_nodeMaybeGrow hin hgrow) hadd)

/-- **An insertion keeps the order.** -/
theorem Inserts.ordered {new : Bool} (h : Inserts node key node' new) (hv : Ordered node) :
    Ordered node' := by
  induction h with
  | fresh key => exact .leaf key
  | present sfx => exact .leaf sfx
  | extend hfork =>
    refine hfork.ordered fun kid hkid => ?_
    obtain rfl := List.mem_singleton.mp hkid
    exact .leaf _
  -- A fork puts the old node below a new one, with the rest of its prefix.
  | above hfork =>
    refine hfork.ordered fun kid hkid => ?_
    obtain rfl := List.mem_singleton.mp hkid
    exact ordered_prependInto.mp hv
  | diverge hne hfork =>
    refine hfork.ordered fun kid hkid => ?_
    rcases List.mem_pair.mp hkid with rfl | rfl
    · exact .leaf _
    · exact ordered_prependInto.mp hv
  | endOld => exact hv
  | endNew => exact hv.setHasEnd true
  | @under node c c' b rest new hc h ih =>
    have hin := isInner_of_nodeChild hc
    obtain ⟨htidy, hchild⟩ := (Ordered.inner_iff hin).mp hv
    have hc' := ih (hchild c (child_of_nodeChild hc))
    refine .inner (by rw [isInner_setChild, hin]) (htidy.setChild hc fun hempty => ?_) fun x hx => ?_
    · rw [h.isEmpty] at hempty
      cases hempty
    · cases child_setChild hx with
      | inl heq => rwa [heq]
      | inr hx => exact hchild x hx
  | @add node g node' b rest hin hnone hgrow hadd =>
    obtain ⟨htidy, hchild⟩ := (Ordered.inner_iff hin).mp hv
    refine .inner (isInner_nodeAddChild (isInner_nodeMaybeGrow hin hgrow) hadd)
      (htidy.add hin hnone rfl hgrow hadd) fun x hx => ?_
    cases child_nodeAddChild hadd hx with
    | inl heq =>
      rw [heq]
      exact .leaf rest
    | inr hx =>
      -- Growing adds no children but empty ones.
      cases child_nodeMaybeGrow hgrow hx with
      | inl heq =>
        rw [heq]
        exact .empty
      | inr hx => exact hchild x hx

theorem removes_leaf {sfx : Bytes} {gone : Bool}
    (heq : removeNode (leaf sfx) key = some (node', gone)) : Removes (leaf sfx) key node' gone := by
  rw [removeNode] at heq
  split at heq
  · next hkey =>
    obtain ⟨rfl, rfl⟩ := Prod.mk.inj (Option.some.inj heq)
    rw [← hkey]
    exact .leaf sfx
  · next hkey =>
    obtain ⟨rfl, rfl⟩ := Prod.mk.inj (Option.some.inj heq)
    exact .absent fun h => hkey (holds_leaf.mp h).symm

/-- The key of the node itself. -/
theorem removes_here {gone : Bool} (hin : node.isInner = true)
    (heq : (if node.nodeHasEnd then (node.setHasEnd false).nodeMaybeShrink.map (·, true)
      else some (node, false)) = some (node', gone)) : Removes node node.nodePrefix node' gone := by
  cases hend : node.nodeHasEnd with
  | true =>
    simp only [hend, if_true] at heq
    obtain ⟨node'', hshrink, hpair⟩ := Option.map_eq_some_iff.mp heq
    obtain ⟨rfl, rfl⟩ := Prod.mk.inj hpair
    exact .atEnd hin hend hshrink
  | false =>
    simp only [hend, Bool.false_eq_true, if_false] at heq
    obtain ⟨rfl, rfl⟩ := Prod.mk.inj (Option.some.inj heq)
    refine .absent ?_
    rw [holds_here hin, hend]
    simp

/-- A key below a child: the child stays, changes, or leaves the node. -/
theorem removes_below {c' : Node} {rest : Bytes} {gone gone' : Bool} (hc : node.nodeChild b = some c)
    (hremoves : Removes c rest c' gone')
    (heq : (if gone' && c'.isEmpty then ((Node.setChild b c' node).nodeDelChild b).bind fun del =>
        del.nodeMaybeShrink.map (·, true)
      else some (Node.setChild b c' node, gone')) = some (node', gone)) :
    Removes node (node.nodePrefix ++ b :: rest) node' gone := by
  have hin := isInner_of_nodeChild hc
  -- The source unlinks the child when the key was in it and nothing is left of it.
  cases gone' with
  | false =>
    obtain ⟨rfl, habsent⟩ := hremoves.eq_of_false
    simp only [Bool.false_and, Bool.false_eq_true, if_false, setChild_self hc] at heq
    obtain ⟨rfl, rfl⟩ := Prod.mk.inj (Option.some.inj heq)
    refine .absent ?_
    rw [holds_branch hin, hc]
    simpa using habsent
  | true =>
    cases hempty : c'.isEmpty with
    | false =>
      simp only [hempty, Bool.and_false, Bool.false_eq_true, if_false] at heq
      obtain ⟨rfl, rfl⟩ := Prod.mk.inj (Option.some.inj heq)
      exact .under hc hremoves hempty
    | true =>
      simp only [hempty, Bool.and_self, if_true] at heq
      obtain rfl := isEmpty_eq_true.mp hempty
      obtain ⟨del, hdel, hmap⟩ := Option.bind_eq_some_iff.mp heq
      obtain ⟨node'', hshrink, hpair⟩ := Option.map_eq_some_iff.mp hmap
      obtain ⟨rfl, rfl⟩ := Prod.mk.inj hpair
      exact .drop hc hremoves hdel hshrink

/-- A removal that succeeds is one of the cases. -/
theorem Ordered.removes (h : Ordered node) {gone : Bool}
    (heq : removeNode node key = some (node', gone)) : Removes node key node' gone := by
  induction h generalizing key node' gone with
  | empty =>
    obtain ⟨rfl, rfl⟩ := Prod.mk.inj (Option.some.inj heq)
    exact .absent not_holds_empty
  | leaf sfx => exact removes_leaf heq
  | @inner node hin htidy hchild ih =>
    rw [removeNode_eq hin htidy.indexInRange] at heq
    rcases commonPrefix_cases node.nodePrefix key with ⟨t, rfl⟩ | ⟨q, b, s, hpfx, hcommon, hkey⟩
    swap
    · unfold removeInner at heq
      rw [hcommon, hpfx, if_pos (by simp)] at heq
      obtain ⟨rfl, rfl⟩ := Prod.mk.inj (Option.some.inj heq)
      exact .absent (not_holds_of_diverges hin hpfx hkey)
    rw [removeInner_through] at heq
    cases t with
    | nil =>
      rw [List.append_nil]
      exact removes_here hin heq
    -- Below the prefix only the child under the next byte can hold the rest of the key.
    | cons b rest =>
      dsimp only at heq
      unfold removeChild at heq
      cases hc : node.nodeChild b with
      | none =>
        simp only [hc, Option.map_none] at heq
        obtain ⟨rfl, rfl⟩ := Prod.mk.inj (Option.some.inj heq)
        refine .absent ?_
        rw [holds_branch hin, hc]
        simp
      | some c =>
        simp only [hc, Option.map_some] at heq
        cases hrec : removeNode c rest with
        | none =>
          rw [hrec] at heq
          cases heq
        | some r =>
          have hremoves := ih c (child_of_nodeChild hc) hrec
          simp only [hrec, Option.map_some, nodeChildIsEmpty_setChild hc] at heq
          exact removes_below hc hremoves heq

/-- **A removal keeps the order.** -/
theorem Removes.ordered {gone : Bool} (h : Removes node key node' gone) (hv : Ordered node) :
    Ordered node' := by
  induction h with
  | absent => exact hv
  | leaf => exact .empty
  | @atEnd node node' hin hend hshrink =>
    have hin' : (node.setHasEnd false).isInner = true := by rw [isInner_setHasEnd, hin]
    obtain ⟨htidy, hchild⟩ := (Ordered.inner_iff hin').mp (hv.setHasEnd false)
    exact ordered_nodeMaybeShrink hin' htidy.relax hchild hshrink
  | @under node c c' b rest hc h hleft ih =>
    have hin := isInner_of_nodeChild hc
    obtain ⟨htidy, hchild⟩ := (Ordered.inner_iff hin).mp hv
    have hc' := ih (hchild c (child_of_nodeChild hc))
    refine .inner (by rw [isInner_setChild, hin]) (htidy.setChild hc fun hempty => ?_) fun x hx => ?_
    · rw [hleft] at hempty
      cases hempty
    · cases child_setChild hx with
      | inl heq => rwa [heq]
      | inr hx => exact hchild x hx
  -- A node that has lost a child is tidy with no slack left, which is what shrinking needs.
  | @drop node c del node' b rest hc h hdel hshrink ih =>
    have hin := isInner_of_nodeChild hc
    obtain ⟨htidy, hchild⟩ := (Ordered.inner_iff hin).mp hv
    have hin' := isInner_nodeDelChild (by rw [isInner_setChild, hin]) hdel
    refine ordered_nodeMaybeShrink hin' (htidy.del hc hdel) (fun x hx => ?_) hshrink
    cases child_nodeDelChild hdel hx with
    | inl heq =>
      rw [heq]
      exact .empty
    | inr hx =>
      cases child_setChild hx with
      | inl heq =>
        rw [heq]
        exact .empty
      | inr hx => exact hchild x hx

end Ordered

end Node

section Segments

variable {α : Type} {r : α → α → Prop} {l : List α}

/-- What is closed upwards ends an ascending list. -/
theorem filter_suffix {p : α → Bool} (hl : l.Pairwise r)
    (hup : ∀ x y, r x y → p x = true → p y = true) : l.filter p <:+ l := by
  induction l with
  | nil => exact List.suffix_rfl
  | cons a l ih =>
    obtain ⟨hfirst, hrest⟩ := List.pairwise_cons.mp hl
    by_cases ha : p a = true
    · rw [List.filter_eq_self.mpr fun x hx => ?_]
      cases hx with
      | head => exact ha
      | tail _ hx => exact hup a x (hfirst x hx) ha
    · rw [List.filter_cons_of_neg ha]
      exact (ih hrest).trans (List.suffix_cons a l)

/-- What is closed downwards begins an ascending list. -/
theorem filter_prefix_of_closed {p : α → Bool} (hl : l.Pairwise r)
    (hdown : ∀ x ∈ l, ∀ y ∈ l, r x y → p y = true → p x = true) : l.filter p <+: l := by
  induction l with
  | nil => exact List.prefix_rfl
  | cons a l ih =>
    obtain ⟨hfirst, hrest⟩ := List.pairwise_cons.mp hl
    by_cases ha : p a = true
    · rw [List.filter_cons_of_pos ha]
      exact (List.prefix_cons_inj a).mpr (ih hrest fun x hx y hy =>
        hdown x (List.mem_cons_of_mem _ hx) y (List.mem_cons_of_mem _ hy))
    · have hnone : l.filter p = [] := by
        refine List.filter_eq_nil_iff.mpr fun x hx hpx => ha ?_
        exact hdown a List.mem_cons_self x (List.mem_cons_of_mem _ hx) (hfirst x hx) hpx
      rw [List.filter_cons_of_neg ha, hnone]
      exact List.nil_prefix

/-- What is convex stands together in an ascending list. -/
theorem filter_infix {p : α → Bool} (hl : l.Pairwise r)
    (hconvex : ∀ x y z, r x y → r y z → p x = true → p z = true → p y = true) :
    l.filter p <:+: l := by
  induction l with
  | nil => exact List.infix_rfl
  | cons a l ih =>
    obtain ⟨hfirst, hrest⟩ := List.pairwise_cons.mp hl
    by_cases ha : p a = true
    · rw [List.filter_cons_of_pos ha]
      refine List.IsPrefix.isInfix ((List.prefix_cons_inj a).mpr ?_)
      exact filter_prefix_of_closed hrest fun x hx y _ hxy hy =>
        hconvex a x y (hfirst x hx) hxy ha hy
    · rw [List.filter_cons_of_neg ha]
      exact (ih hrest).trans (List.infix_cons List.infix_rfl)

/-- Two members of an ascending list stand in their order. -/
theorem pair_sublist [Std.Asymm r] (hl : l.Pairwise r) {x y : α} (hx : x ∈ l) (hy : y ∈ l) (hxy : r x y) :
    [x, y].Sublist l := by
  obtain ⟨front, back, rfl⟩ := List.append_of_mem hx
  have hback : y ∈ back := by
    rcases List.mem_append.mp hy with hfront | hrest
    · have hlt := (List.pairwise_append.mp hl).2.2 y hfront x List.mem_cons_self
      exact absurd hxy (Std.Asymm.asymm _ _ hlt)
    · cases hrest with
      | head => exact absurd hxy (Std.Asymm.asymm _ _ hxy)
      | tail _ h => exact h
  exact ((List.singleton_sublist.mpr hback).cons_cons x).trans (List.sublist_append_right front _)

end Segments

/-- Between two byte strings with a prefix, all have it. -/
theorem prefix_of_between {p s t y : Bytes} (hlow : p ++ s < y) (hhigh : y < p ++ t) : p <+: y := by
  induction p generalizing y with
  | nil => exact List.nil_prefix
  | cons a p ih =>
    cases y with
    | nil => exact absurd hlow (List.not_lt_nil _)
    | cons c y =>
      rw [List.cons_append, List.cons_lt_cons_iff] at hlow hhigh
      rcases hlow with hac | ⟨rfl, hlow⟩
      · rcases hhigh with hca | ⟨rfl, -⟩
        · exact absurd (UInt8.lt_trans hac hca) (UInt8.lt_irrefl a)
        · exact absurd hac (UInt8.lt_irrefl _)
      · rcases hhigh with hca | ⟨-, hhigh⟩
        · exact absurd hca (UInt8.lt_irrefl _)
        · exact (List.prefix_cons_inj a).mpr (ih hlow hhigh)

namespace IndexTree

/-- The enumeration of a tree, and what the iterators select of it: the end or the beginning of the
    enumeration, or the part between two places, with exactly the keys that they are about. -/
structure Enumerates (t : IndexTree) (l : List Bytes) : Prop where
  keys : t.keys = some l
  ascending : l.Pairwise (· < ·)
  nodup : l.Nodup
  shorterFirst : ∀ k rest, rest ≠ [] → k ∈ l → k ++ rest ∈ l → [k, k ++ rest].Sublist l
  gt : ∀ lo, ∃ part, t.iterGt lo = some part ∧ part <:+ l ∧ ∀ k, k ∈ part ↔ k ∈ l ∧ lo < k
  gte : ∀ lo, ∃ part, t.iterGte lo = some part ∧ part <:+ l ∧ ∀ k, k ∈ part ↔ k ∈ l ∧ lo ≤ k
  lt : ∀ hi, ∃ part, t.iterLt hi = some part ∧ part <+: l ∧ ∀ k, k ∈ part ↔ k ∈ l ∧ k < hi
  lte : ∀ hi, ∃ part, t.iterLte hi = some part ∧ part <+: l ∧ ∀ k, k ∈ part ↔ k ∈ l ∧ k ≤ hi
  pfx : ∀ p, ∃ part, t.iterPrefix p = some part ∧ part <:+: l ∧ ∀ k, k ∈ part ↔ k ∈ l ∧ p <+: k

variable {t : IndexTree}

theorem enumerates_of_ordered (h : t.root.Ordered) : ∃ l, t.Enumerates l := by
  obtain ⟨l, hl, hasc⟩ := h.collectAll []
  have hkeys : t.keys = some l := hl
  have hpairwise := hasc.pairwise
  have hfiltered : ∀ p, t.filtered p = some (l.filter p) := by
    intro p
    rw [filtered, hkeys]
    rfl
  refine ⟨l, ?_⟩
  constructor
  · exact hkeys
  · exact hpairwise
  · exact hpairwise.imp Std.ne_of_lt
  -- A proper prefix comes before what extends it.
  · intro k rest hne hk hkr
    refine pair_sublist hpairwise hk hkr ?_
    conv_lhs => rw [← List.append_nil k]
    obtain ⟨b, rest', rfl⟩ := List.exists_cons_of_ne_nil hne
    exact List.append_left_lt (List.nil_lt_cons b rest')
  · intro lo
    exact ⟨_, hfiltered _, filter_suffix hpairwise fun x y hxy hx => by
      simpa using Std.lt_trans (by simpa using hx) hxy, fun k => by simp⟩
  · intro lo
    exact ⟨_, hfiltered _, filter_suffix hpairwise fun x y hxy hx => by
      simpa using Std.le_trans (by simpa using hx) (Std.le_of_lt hxy), fun k => by simp⟩
  · intro hi
    exact ⟨_, hfiltered _, filter_prefix_of_closed hpairwise fun x _ y _ hxy hy => by
      simpa using Std.lt_trans hxy (by simpa using hy), fun k => by simp⟩
  · intro hi
    exact ⟨_, hfiltered _, filter_prefix_of_closed hpairwise fun x _ y _ hxy hy => by
      simpa using Std.le_trans (Std.le_of_lt hxy) (by simpa using hy), fun k => by simp⟩
  · intro p
    refine ⟨_, hfiltered _, filter_infix hpairwise fun x y z hxy hyz hx hz => ?_, fun k => by simp⟩
    rw [List.isPrefixOf_iff_prefix] at hx hz ⊢
    obtain ⟨s, rfl⟩ := hx
    obtain ⟨u, rfl⟩ := hz
    exact prefix_of_between hxy hyz

theorem Ordered.call {op : SetOp} {r : IndexTree × Bool} (h : t.root.Ordered)
    (heq : op.onTree t = some r) : r.1.root.Ordered := by
  cases op with
  | insert key =>
    obtain ⟨⟨root, new⟩, hinsert, rfl⟩ := Option.map_eq_some_iff.mp heq
    have hroot := (h.inserts hinsert).ordered h
    cases new <;> exact hroot
  | remove key =>
    obtain ⟨⟨root, gone⟩, hremove, rfl⟩ := Option.map_eq_some_iff.mp heq
    have hroot := (h.removes hremove).ordered h
    cases gone <;> exact hroot

/-- **Run**: every tree that a run leaves is ordered. -/
theorem ordered_run {ops : List SetOp} {t : IndexTree} {answers : List Bool}
    (h : treeRun ops = some (t, answers)) : t.root.Ordered := by
  induction ops using List.reverseRecOn generalizing t answers with
  | nil =>
    obtain ⟨rfl, -⟩ := Prod.mk.inj (Option.some.inj h)
    exact .empty
  | append_singleton ops op ih =>
    rw [treeRun_snoc] at h
    obtain ⟨⟨u, before⟩, hu, hop⟩ := Option.bind_eq_some_iff.mp h
    obtain ⟨r, hr, hpair⟩ := Option.map_eq_some_iff.mp hop
    obtain ⟨rfl, -⟩ := Prod.mk.inj hpair
    exact Ordered.call (ih hu) hr

end IndexTree

/-- **Enumeration order**: every tree that a run of insertions and removals leaves enumerates its
    keys in ascending order, shorter keys first, and the iterators select parts of it. -/
theorem enumerates_run {ops : List SetOp} {t : IndexTree} {answers : List Bool}
    (h : treeRun ops = some (t, answers)) : ∃ l, t.Enumerates l :=
  IndexTree.enumerates_of_ordered (IndexTree.ordered_run h)

theorem enumerates_run_mergeOps : ∃ t answers, treeRun mergeOps = some (t, answers) ∧
    t.root.isInner = true ∧ ∃ l, t.Enumerates l := by
  obtain ⟨t, answers, hrun, hin, -⟩ := exists_mergeRun
  exact ⟨t, answers, hrun, hin, enumerates_run hrun⟩

end Arkiv
