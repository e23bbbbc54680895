import Mathlib
import Arkiv.IndexTree.Shape

/-!
# Operations on one node

Replacing, adding and removing a child, with the growth before and the shrinking
after. Each keeps a sound node sound and changes the one child it is about.

## Main definitions

- `Node.AddsSafely` — where a child can be added without loss
- `Node.Sound.setChild`, `Node.Sound.add`, `Node.Sound.del` — the changes of one child
- `Node.Sound.shrink` — what a node shrinks to
- `Node.Fork` — the fresh 4-node of a split
-/

namespace Arkiv.Node

open ByteString

variable {node : Node} {b : UInt8} {c c₀ : Node}

theorem nodeChild_n256_eq_some {pfx : Bytes} {he : Bool} {n : ℕ} {ch : UInt8 → Node} :
    (n256 pfx he n ch).nodeChild b = some c ↔ ch b = c ∧ c.isEmpty = false := by
  simp only [nodeChild]
  by_cases h : (ch b).isEmpty = true
  · rw [if_pos h]
    refine iff_of_false (by simp) ?_
    rintro ⟨rfl, hne⟩
    rw [h] at hne
    cases hne
  · rw [if_neg h, Option.some.injEq]
    exact ⟨fun heq => ⟨heq, by simpa [heq] using h⟩, fun heq => heq.1⟩

/-- The children of a sound node are not empty. -/
theorem Sound.child_isEmpty (h : node.Sound) (hc : node.nodeChild b = some c) :
    c.isEmpty = false := by
  cases node with
  | empty => cases hc
  | leaf sfx => cases hc
  | n4 pfx he n keys ch =>
    obtain ⟨i, hi, -, rfl⟩ := (map_findKey_eq_some h.ascending).mp hc
    exact (h.full i).mpr hi
  | n16 pfx he n keys ch =>
    obtain ⟨i, hi, -, rfl⟩ := (map_findKey_eq_some h.ascending).mp hc
    exact (h.full i).mpr hi
  | n48 pfx he n idx ch =>
    obtain ⟨s, hs, rfl⟩ := nodeChild_n48_eq_some.mp hc
    exact (h.full s).mpr ⟨b, hs⟩
  | n256 pfx he n ch => exact (nodeChild_n256_eq_some.mp hc).2

section SetChild

variable {pfx : Bytes} {he : Bool} {n : ℕ}

/-- A child of a 48-node is replaced in its slot. -/
theorem setChild_n48 {idx : UInt8 → UInt8} {ch : Fin 48 → Node} {s : Fin 48}
    (hs : idx b = UInt8.ofNat s.val) :
    setChild b c (n48 pfx he n idx ch) = n48 pfx he n idx (Function.update ch s c) := by
  have hval : (idx b).toNat = s.val := by rw [hs, toNat_ofNat_slot]
  have hlt : (idx b).toNat < 48 := by have := s.isLt; omega
  have hslot : (⟨(idx b).toNat, hlt⟩ : Fin 48) = s := Fin.ext hval
  simp only [setChild]
  rw [dif_pos hlt, hslot]

theorem IndexSound.nodeChild_update {idx : UInt8 → UInt8} {ch : Fin 48 → Node}
    (h : IndexSound n idx ch) {s : Fin 48} (hs : idx b = UInt8.ofNat s.val) (b' : UInt8) :
    (n48 pfx he n idx (Function.update ch s c)).nodeChild b' =
      if b' = b then some c else (n48 pfx he n idx ch).nodeChild b' := by
  by_cases hb : b' = b
  · rw [if_pos hb, hb]
    exact nodeChild_n48_eq_some.mpr ⟨s, hs, Function.update_self s c ch⟩
  · rw [if_neg hb]
    apply Option.ext
    intro x
    rw [nodeChild_n48_eq_some, nodeChild_n48_eq_some]
    refine exists_congr fun t => and_congr_right fun ht => ?_
    have hne : t ≠ s := by
      rintro rfl
      exact hb (h.slot_inj ht hs)
    rw [Function.update_of_ne hne]

theorem nodeChild_n256_update {ch : UInt8 → Node} (hc : c.isEmpty = false) (b' : UInt8) :
    (n256 pfx he n (Function.update ch b c)).nodeChild b' =
      if b' = b then some c else (n256 pfx he n ch).nodeChild b' := by
  simp only [nodeChild]
  by_cases hb : b' = b
  · rw [if_pos hb, hb, Function.update_self, if_neg (by simp [hc])]
  · rw [if_neg hb, Function.update_of_ne hb]

end SetChild

/-- **Replacing a child**. -/
theorem Sound.setChild (h : node.Sound) (hc : node.nodeChild b = some c₀)
    (hx : c.isEmpty = false) :
    (setChild b c node).Sound ∧ View node b (some c) (setChild b c node) := by
  cases node with
  | empty => cases hc
  | leaf sfx => cases hc
  | n4 pfx he n keys ch =>
    obtain ⟨i, hi, -⟩ := Option.map_eq_some_iff.mp hc
    have hlt := ((findKey_eq_some h.ascending).mp hi).1
    simp only [Node.setChild, hi]
    exact ⟨SmallSound.update h hlt hx, rfl, rfl, rfl, map_findKey_update h.ascending hi c⟩
  | n16 pfx he n keys ch =>
    obtain ⟨i, hi, -⟩ := Option.map_eq_some_iff.mp hc
    have hlt := ((findKey_eq_some h.ascending).mp hi).1
    simp only [Node.setChild, hi]
    exact ⟨SmallSound.update h hlt hx, rfl, rfl, rfl, map_findKey_update h.ascending hi c⟩
  | n48 pfx he n idx ch =>
    obtain ⟨s, hs, -⟩ := nodeChild_n48_eq_some.mp hc
    rw [setChild_n48 hs]
    exact ⟨IndexSound.update h hs hx, rfl, rfl, rfl, IndexSound.nodeChild_update h hs⟩
  | n256 pfx he n ch => exact ⟨h, rfl, rfl, rfl, nodeChild_n256_update hx⟩

/-- A child put back where it is. -/
theorem setChild_self (hc : node.nodeChild b = some c) :
    Node.setChild b c node = node := by
  cases node with
  | empty => cases hc
  | leaf sfx => cases hc
  | n4 pfx he n keys ch =>
    obtain ⟨i, hi, rfl⟩ := Option.map_eq_some_iff.mp hc
    simp only [Node.setChild, hi, Function.update_eq_self]
  | n16 pfx he n keys ch =>
    obtain ⟨i, hi, rfl⟩ := Option.map_eq_some_iff.mp hc
    simp only [Node.setChild, hi, Function.update_eq_self]
  | n48 pfx he n idx ch =>
    obtain ⟨s, hs, rfl⟩ := nodeChild_n48_eq_some.mp hc
    rw [setChild_n48 hs, Function.update_eq_self]
  | n256 pfx he n ch =>
    obtain ⟨rfl, -⟩ := nodeChild_n256_eq_some.mp hc
    simp only [Node.setChild, Function.update_eq_self]

theorem nodeChildIsEmpty_setChild (hc : node.nodeChild b = some c₀) :
    (Node.setChild b c node).nodeChildIsEmpty b = c.isEmpty := by
  cases node with
  | empty => cases hc
  | leaf sfx => cases hc
  | n4 pfx he n keys ch =>
    obtain ⟨i, hi, -⟩ := Option.map_eq_some_iff.mp hc
    simp [nodeChildIsEmpty, Node.setChild, hi, nodeChild]
  | n16 pfx he n keys ch =>
    obtain ⟨i, hi, -⟩ := Option.map_eq_some_iff.mp hc
    simp [nodeChildIsEmpty, Node.setChild, hi, nodeChild]
  | n48 pfx he n idx ch =>
    obtain ⟨s, hs, -⟩ := nodeChild_n48_eq_some.mp hc
    have hchild : (n48 pfx he n idx (Function.update ch s c)).nodeChild b = some c :=
      nodeChild_n48_eq_some.mpr ⟨s, hs, Function.update_self s c ch⟩
    rw [setChild_n48 hs, nodeChildIsEmpty, hchild]
    rfl
  | n256 pfx he n ch =>
    cases hx : c.isEmpty <;> simp [nodeChildIsEmpty, Node.setChild, nodeChild, hx]

/-- Where a child can be added without loss: growing a full 48-node drops the child under `0xFF`,
    and the counter of a 256-node has 16 bits. -/
def AddsSafely : Node → Prop
  | n48 _ _ n idx _ => n = 48 → idx 0xFF = n48Nil
  | n256 _ _ n _ => n + 1 < 65536
  | _ => True

section Add

variable (pfx : Bytes) (he : Bool) {n : ℕ} (b : UInt8)

theorem n4_add {keys : Fin 4 → UInt8} {ch : Fin 4 → Node} (h : SmallSound n keys ch)
    (hn : n < 4) (hnone : findKey n keys b = none) (hx : c.isEmpty = false) :
    ∃ node', (n4 pfx he n keys ch).nodeAddChild b c = some node' ∧ node'.Sound ∧
      View (n4 pfx he n keys ch) b (some c) node' := by
  refine ⟨n4 pfx he (n + 1) (shiftIn (insertPos n keys b) n b keys)
    (shiftIn (insertPos n keys b) n c ch), if_pos hn, h.add hnone hn hx, rfl, rfl, rfl, ?_⟩
  exact map_findKey_shiftIn h.ascending (findKey_eq_none.mp hnone) hn c

theorem n16_add {keys : Fin 16 → UInt8} {ch : Fin 16 → Node} (h : SmallSound n keys ch)
    (hn : n < 16) (hnone : findKey n keys b = none) (hx : c.isEmpty = false) :
    ∃ node', (n16 pfx he n keys ch).nodeAddChild b c = some node' ∧ node'.Sound ∧
      View (n16 pfx he n keys ch) b (some c) node' := by
  refine ⟨n16 pfx he (n + 1) (shiftIn (insertPos n keys b) n b keys)
    (shiftIn (insertPos n keys b) n c ch), if_pos hn, h.add hnone hn hx, rfl, rfl, rfl, ?_⟩
  exact map_findKey_shiftIn h.ascending (findKey_eq_none.mp hnone) hn c

theorem n48_add {idx : UInt8 → UInt8} {ch : Fin 48 → Node} (h : IndexSound n idx ch)
    (hn : n < 48) (hnone : idx b = n48Nil) (hx : c.isEmpty = false) :
    ∃ node', (n48 pfx he n idx ch).nodeAddChild b c = some node' ∧ node'.Sound ∧
      View (n48 pfx he n idx ch) b (some c) node' := by
  obtain ⟨s, hs⟩ := h.exists_free hn
  have hfree : (ch s).isEmpty = true := by simpa using List.find?_some hs
  have hsound := h.add hnone hfree hx
  refine ⟨n48 pfx he ((n + 1) % 256) (Function.update idx b (UInt8.ofNat s.val))
    (Function.update ch s c), by rw [nodeAddChild, hs]; rfl, ?_, rfl, rfl, rfl, fun b' => ?_⟩
  · rw [Nat.mod_eq_of_lt (by omega)]
    exact hsound
  · by_cases hb : b' = b
    · rw [if_pos hb, hb]
      exact nodeChild_n48_eq_some.mpr ⟨s, Function.update_self b _ idx, Function.update_self s c ch⟩
    · rw [if_neg hb]
      apply Option.ext
      intro x
      rw [nodeChild_n48_eq_some, nodeChild_n48_eq_some]
      refine exists_congr fun t => ?_
      rw [Function.update_of_ne hb]
      refine and_congr_right fun ht => ?_
      have hne : t ≠ s := by
        rintro rfl
        exact h.unused_of_free hfree b' ht
      rw [Function.update_of_ne hne]

theorem n256_add (n : ℕ) (b : UInt8) (ch : UInt8 → Node) (hlow : 47 < n) (hhigh : n + 1 < 65536)
    (hx : c.isEmpty = false) : ∃ node', (n256 pfx he n ch).nodeAddChild b c = some node' ∧
      node'.Sound ∧ View (n256 pfx he n ch) b (some c) node' := by
  refine ⟨_, rfl, ?_, rfl, rfl, rfl, nodeChild_n256_update hx⟩
  show 48 < (n + 1) % 65536 ∧ (n + 1) % 65536 < 65536
  omega

end Add

/-- Two nodes with the same prefix, flag and children. -/
structure Alike (node node' : Node) : Prop where
  inner : node'.isInner = true
  nodePrefix : node'.nodePrefix = node.nodePrefix
  nodeHasEnd : node'.nodeHasEnd = node.nodeHasEnd
  child : ∀ b, node'.nodeChild b = node.nodeChild b

theorem View.of_alike {g node' : Node} {x : Option Node} (h : Alike node g)
    (hv : View g b x node') : View node b x node' where
  inner := hv.inner
  nodePrefix := hv.nodePrefix.trans h.nodePrefix
  nodeHasEnd := hv.nodeHasEnd.trans h.nodeHasEnd
  child b' := by rw [hv.child, h.child]

/-- **Adding a child**: the node has room once it has grown. -/
theorem Sound.add (h : node.Sound) (hin : node.isInner = true) (hsafe : node.AddsSafely)
    (hnone : node.nodeChild b = none) (hx : c.isEmpty = false) :
    ∃ g node', node.nodeMaybeGrow = some g ∧ g.nodeAddChild b c = some node' ∧ node'.Sound ∧
      View node b (some c) node' := by
  cases node with
  | empty => cases hin
  | leaf sfx => cases hin
  | n4 pfx he n keys ch =>
    have hnone' := Option.map_eq_none_iff.mp hnone
    by_cases hn : n = 4
    · obtain ⟨hsound, hchild⟩ := SmallSound.n4ToN16 pfx he h
      have halike : Alike (n4 pfx he n keys ch) (n4ToN16 pfx he n keys ch) :=
        ⟨rfl, rfl, rfl, hchild⟩
      have habsent : (n4ToN16 pfx he n keys ch).nodeChild b = none := by rw [hchild, hnone']; rfl
      obtain ⟨node', hadd, hsound', hview⟩ := n16_add pfx he b hsound
        (by omega) (Option.map_eq_none_iff.mp habsent) hx
      exact ⟨_, node', if_pos hn, hadd, hsound', hview.of_alike halike⟩
    · have hle := SmallSound.le h
      obtain ⟨node', hadd, hsound', hview⟩ := n4_add pfx he b h
        (by omega) hnone' hx
      exact ⟨_, node', if_neg hn, hadd, hsound', hview⟩
  | n16 pfx he n keys ch =>
    have hnone' := Option.map_eq_none_iff.mp hnone
    by_cases hn : n = 16
    · obtain ⟨hsound, hchild⟩ := SmallSound.n16ToN48 pfx he h
      have halike : Alike (n16 pfx he n keys ch) (n16ToN48 pfx he n keys ch) :=
        ⟨rfl, rfl, rfl, hchild⟩
      have habsent : (n16ToN48 pfx he n keys ch).nodeChild b = none := by rw [hchild, hnone']; rfl
      obtain ⟨node', hadd, hsound', hview⟩ := n48_add pfx he b hsound
        (by omega) ((IndexSound.nodeChild_eq_none hsound).mp habsent) hx
      exact ⟨_, node', if_pos hn, hadd, hsound', hview.of_alike halike⟩
    · have hle := SmallSound.le h
      obtain ⟨node', hadd, hsound', hview⟩ := n16_add pfx he b h
        (by omega) hnone' hx
      exact ⟨_, node', if_neg hn, hadd, hsound', hview⟩
  | n48 pfx he n idx ch =>
    by_cases hn : n = 48
    · obtain ⟨ch', hgrow, hch'⟩ := IndexSound.n48ToN256 pfx he h (hsafe hn)
      have halike : Alike (n48 pfx he n idx ch) (n256 pfx he n ch') := by
        refine ⟨rfl, rfl, rfl, fun b' => Option.ext fun x => ?_⟩
        rw [nodeChild_n256_eq_some, hch']
        cases hold : (n48 pfx he n idx ch).nodeChild b' with
        | none => simp only [Option.getD_none, reduceCtorEq, iff_false]; rintro ⟨rfl, hne⟩; cases hne
        | some y =>
          have hy := Sound.child_isEmpty (show Sound (n48 pfx he n idx ch) from h) hold
          simp only [Option.getD_some, Option.some.injEq]
          exact ⟨fun heq => heq.1, fun heq => ⟨heq, heq ▸ hy⟩⟩
      obtain ⟨node', hadd, hsound', hview⟩ := n256_add pfx he n b ch' (by omega) (by omega) hx
      refine ⟨_, node', ?_, hadd, hsound', hview.of_alike halike⟩
      rw [nodeMaybeGrow, if_pos hn, hgrow]
    · have hle := IndexSound.le h
      obtain ⟨node', hadd, hsound', hview⟩ := n48_add pfx he b h
        (by omega) ((IndexSound.nodeChild_eq_none h).mp hnone) hx
      exact ⟨_, node', if_neg hn, hadd, hsound', hview⟩
  | n256 pfx he n ch =>
    obtain ⟨node', hadd, hsound', hview⟩ := n256_add pfx he n b ch (by have := h.1; omega) hsafe hx
    exact ⟨_, node', rfl, hadd, hsound', hview⟩

/-- **Removing a child** that has just become empty. A 256-node finds the slot empty already and
    leaves its counter alone. -/
theorem Sound.del (h : node.Sound) (hc : node.nodeChild b = some c₀) :
    ∃ node', (Node.setChild b empty node).nodeDelChild b = some node' ∧ node'.Sound ∧
      View node b none node' := by
  cases node with
  | empty => cases hc
  | leaf sfx => cases hc
  | n4 pfx he n keys ch =>
    obtain ⟨i, hi, -⟩ := Option.map_eq_some_iff.mp hc
    have hlt := ((findKey_eq_some h.ascending).mp hi).1
    refine ⟨n4 pfx he (n - 1) (shiftOut i.val n keys) fun j =>
      if j.val + 1 = n then empty else shiftOut i.val n (Function.update ch i empty) j,
      by simp only [Node.setChild, nodeDelChild, hi], SmallSound.del h hlt, rfl, rfl, rfl, ?_⟩
    exact map_findKey_shiftOut h.ascending (SmallSound.le h) hi fun j hj => shiftOut_update h hj
  | n16 pfx he n keys ch =>
    obtain ⟨i, hi, -⟩ := Option.map_eq_some_iff.mp hc
    have hlt := ((findKey_eq_some h.ascending).mp hi).1
    refine ⟨n16 pfx he (n - 1) (shiftOut i.val n keys) fun j =>
      if j.val + 1 = n then empty else shiftOut i.val n (Function.update ch i empty) j,
      by simp only [Node.setChild, nodeDelChild, hi], SmallSound.del h hlt, rfl, rfl, rfl, ?_⟩
    exact map_findKey_shiftOut h.ascending (SmallSound.le h) hi fun j hj => shiftOut_update h hj
  | n48 pfx he n idx ch =>
    obtain ⟨s, hs, -⟩ := nodeChild_n48_eq_some.mp hc
    have hval : (idx b).toNat = s.val := by rw [hs, toNat_ofNat_slot]
    have hlt : (idx b).toNat < 48 := by have := s.isLt; omega
    have hslot : (⟨(idx b).toNat, hlt⟩ : Fin 48) = s := Fin.ext hval
    have hne : idx b ≠ n48Nil := by rw [hs]; exact ofNat_slot_ne_nil s
    have hsound := IndexSound.del h hs
    have hpos : 0 < n := by
      rw [← IndexSound.count h]
      exact List.length_pos_of_mem (mem_usedBytes.mpr hne)
    have hle := IndexSound.le h
    refine ⟨n48 pfx he ((n + 255) % 256) (Function.update idx b n48Nil) (Function.update ch s empty),
      ?_, ?_, rfl, rfl, rfl, fun b' => ?_⟩
    · rw [setChild_n48 hs, nodeDelChild, if_neg hne, dif_pos hlt, hslot, Function.update_idem]
    · rw [show (n + 255) % 256 = n - 1 by omega]
      exact hsound
    · by_cases hb : b' = b
      · rw [if_pos hb, hb]
        exact nodeChild_n48_of_nil (Function.update_self b _ idx)
      · rw [if_neg hb]
        apply Option.ext
        intro x
        rw [nodeChild_n48_eq_some, nodeChild_n48_eq_some, Function.update_of_ne hb]
        refine exists_congr fun t => and_congr_right fun ht => ?_
        have hts : t ≠ s := by
          rintro rfl
          exact hb (IndexSound.slot_inj h ht hs)
        rw [Function.update_of_ne hts]
  | n256 pfx he n ch =>
    refine ⟨n256 pfx he n (Function.update ch b empty), ?_, h, rfl, rfl, rfl, fun b' => ?_⟩
    · simp [Node.setChild, nodeDelChild, isEmpty]
    · by_cases hb : b' = b
      · simp [nodeChild, hb, isEmpty]
      · simp [nodeChild, hb]

/-- **Shrinking**: a node without keys goes, a 4-node with one child and no key of its own merges
    into the child, and every other node keeps what it has. -/
inductive Shrinks (node : Node) : Node → Prop
  | gone (hend : node.nodeHasEnd = false) (hnone : ∀ b, node.nodeChild b = none) :
      Shrinks node empty
  | merge {b : UInt8} {c : Node} (hend : node.nodeHasEnd = false)
      (hchild : ∀ b', node.nodeChild b' = if b' = b then some c else none) :
      Shrinks node (prependInto node.nodePrefix b c)
  | keep {node' : Node} (hsound : node'.Sound) (halike : Alike node node') : Shrinks node node'

theorem Alike.refl (h : node.isInner = true) : Alike node node := ⟨h, rfl, rfl, fun _ => rfl⟩

theorem map_findKey_zero {cap : ℕ} (keys : Fin cap → UInt8) (ch : Fin cap → Node) (b : UInt8) :
    (findKey 0 keys b).map ch = none :=
  map_findKey_eq_none.mpr fun _ hi => absurd hi (Nat.not_lt_zero _)

/-- The counter is zero in nodes without children only. -/
theorem Sound.nodeChild_of_zero (h : node.Sound) (hzero : node.nodeNChildren = 0) (b : UInt8) :
    node.nodeChild b = none := by
  cases node with
  | empty => rfl
  | leaf sfx => rfl
  | n4 pfx he n keys ch =>
    obtain rfl : n = 0 := hzero
    exact map_findKey_zero keys ch b
  | n16 pfx he n keys ch =>
    obtain rfl : n = 0 := hzero
    exact map_findKey_zero keys ch b
  | n48 pfx he n idx ch =>
    obtain rfl : n = 0 := hzero
    rw [IndexSound.nodeChild_eq_none h]
    by_contra hne
    have hmem := mem_usedBytes.mpr hne
    rw [List.length_eq_zero_iff.mp (IndexSound.count h)] at hmem
    cases hmem
  | n256 pfx he n ch =>
    obtain rfl : n = 0 := hzero
    exact absurd h.1 (by decide)

theorem SmallSound.map_findKey_one {keys : Fin 4 → UInt8} {ch : Fin 4 → Node}
    (h : SmallSound 1 keys ch) (b : UInt8) :
    (findKey 1 keys b).map ch = if b = keys 0 then some (ch 0) else none := by
  by_cases hb : b = keys 0
  · rw [if_pos hb, map_findKey_eq_some h.ascending]
    exact ⟨0, by decide, hb.symm, rfl⟩
  · rw [if_neg hb, map_findKey_eq_none]
    intro i hi hkey
    obtain rfl : i = 0 := Fin.ext (by simpa using hi)
    exact hb hkey.symm

theorem Sound.shrink (h : node.Sound) (hin : node.isInner = true) :
    ∃ node', node.nodeMaybeShrink = some node' ∧ Shrinks node node' := by
  by_cases hgone : node.nodeNChildren = 0 ∧ node.nodeHasEnd = false
  · refine ⟨empty, ?_, .gone hgone.2 (h.nodeChild_of_zero hgone.1)⟩
    unfold nodeMaybeShrink
    exact if_pos hgone
  unfold nodeMaybeShrink
  rw [if_neg hgone]
  cases node with
  | empty => cases hin
  | leaf sfx => cases hin
  | n4 pfx he n keys ch =>
    by_cases hmerge : n = 1 ∧ he = false
    · obtain ⟨rfl, rfl⟩ := hmerge
      exact ⟨_, if_pos ⟨rfl, rfl⟩, .merge rfl (SmallSound.map_findKey_one h)⟩
    · exact ⟨_, if_neg hmerge, .keep h (.refl rfl)⟩
  | n16 pfx he n keys ch =>
    by_cases hn : n ≤ 4
    · obtain ⟨hsound, hchild⟩ := SmallSound.n16ToN4 pfx he h hn
      exact ⟨_, if_pos hn, .keep hsound ⟨rfl, rfl, rfl, hchild⟩⟩
    · exact ⟨_, if_neg hn, .keep h (.refl rfl)⟩
  | n48 pfx he n idx ch =>
    by_cases hn : n ≤ 16
    · obtain ⟨hsound, hchild⟩ := IndexSound.n48ToN16 pfx he h hn
      refine ⟨n16 pfx he n _ _, ?_, .keep hsound ⟨rfl, rfl, rfl, hchild⟩⟩
      rw [← IndexSound.n48ToN16_eq h hn]
      exact if_pos hn
    · exact ⟨_, if_neg hn, .keep h (.refl rfl)⟩
  | n256 pfx he n ch =>
    have hn : ¬n ≤ 48 := not_le.mpr h.1
    exact ⟨_, if_neg hn, .keep h (.refl rfl)⟩

/-- What a sound node shrinks to is sound, when its children are. -/
theorem Sound.of_shrink {node' : Node} (h : node.Sound) (hin : node.isInner = true)
    (hshrink : node.nodeMaybeShrink = some node') (halike : Alike node node') : node'.Sound := by
  obtain ⟨node'', hshrink', hcase⟩ := h.shrink hin
  obtain rfl := Option.some.inj (hshrink'.symm.trans hshrink)
  cases hcase with
  | gone => trivial
  | merge =>
    -- The merged child has a longer prefix, so it does not look like the node.
    have hlen := congrArg List.length halike.nodePrefix
    rename_i b' c' _ _
    cases c' with
    | empty => trivial
    | leaf sfx => trivial
    | _ => simp [prependInto, Node.setPrefix, Node.nodePrefix] at hlen
  | keep hsound => exact hsound

/-- A fresh 4-node with the listed children. -/
structure Fork (pfx : Bytes) (he : Bool) (kids : List (UInt8 × Node)) (node : Node) : Prop where
  shape : ∃ keys ch, node = n4 pfx he kids.length keys ch
  sound : node.Sound
  child : ∀ b, node.nodeChild b = kids.lookup b

theorem Fork.setHasEnd {pfx : Bytes} {he : Bool} {kids : List (UInt8 × Node)}
    (h : Fork pfx he kids node) (he' : Bool) : Fork pfx he' kids (node.setHasEnd he') := by
  obtain ⟨keys, ch, rfl⟩ := h.shape
  exact ⟨⟨keys, ch, rfl⟩, h.sound, h.child⟩

theorem n4Empty_fork (pfx : Bytes) (he : Bool) : Fork pfx he [] (n4Empty pfx he) where
  shape := ⟨_, _, rfl⟩
  sound := ⟨Nat.zero_le _, fun _ _ _ hj => absurd hj (Nat.not_lt_zero _),
    fun _ => iff_of_false (by simp [isEmpty]) (Nat.not_lt_zero _)⟩
  child b := map_findKey_zero (fun _ : Fin 4 => 0) (fun _ => empty) b

theorem Fork.add {pfx : Bytes} {he : Bool} {kids : List (UInt8 × Node)} (h : Fork pfx he kids node)
    (hlen : kids.length < 4) (hb : kids.lookup b = none) (hc : c.isEmpty = false) :
    ∃ node', node.nodeAddChild b c = some node' ∧ Fork pfx he ((b, c) :: kids) node' := by
  obtain ⟨keys, ch, rfl⟩ := h.shape
  have hnone : findKey kids.length keys b = none :=
    Option.map_eq_none_iff.mp ((h.child b).trans hb)
  obtain ⟨node', hadd, hsound, hview⟩ := n4_add pfx he _ h.sound hlen hnone hc
  refine ⟨node', hadd, ?_, hsound, fun b' => ?_⟩
  · rw [nodeAddChild, if_pos hlen] at hadd
    exact ⟨_, _, (Option.some.inj hadd).symm⟩
  · rw [hview.child, h.child, List.lookup_cons]
    by_cases hb' : b' = b
    · rw [if_pos hb', hb', beq_self_eq_true]
    · rw [if_neg hb', beq_eq_false_iff_ne.mpr hb']

end Arkiv.Node
