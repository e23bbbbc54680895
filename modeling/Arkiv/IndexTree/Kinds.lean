import Mathlib
import Arkiv.IndexTree.Removal

/-!
# Kinds of nodes

Which kind of node an insertion or a removal leaves, with its counter, index and
slots. Invariants about the shape of a tree follow from these cases.

## Main definitions

- `Node.AddShape` — a node with one more child
- `Node.DelShape` — a node with one child less, before it shrinks
- `Node.Settles` — a node that shrinks without vanishing or merging
-/

namespace Arkiv.Node

open ByteString

/-- A node with one more child under `b`. -/
inductive AddShape (b : UInt8) (c : Node) : Node → Node → Prop
  | n4 {pfx : Bytes} {he : Bool} {n : ℕ} {keys keys' : Fin 4 → UInt8} {ch ch' : Fin 4 → Node}
      (hn : n < 4) : AddShape b c (n4 pfx he n keys ch) (n4 pfx he (n + 1) keys' ch')
  | n4Full {pfx : Bytes} {he : Bool} {keys : Fin 4 → UInt8} {ch : Fin 4 → Node}
      {keys' : Fin 16 → UInt8} {ch' : Fin 16 → Node} :
      AddShape b c (Node.n4 pfx he 4 keys ch) (n16 pfx he 5 keys' ch')
  | n16 {pfx : Bytes} {he : Bool} {n : ℕ} {keys keys' : Fin 16 → UInt8} {ch ch' : Fin 16 → Node}
      (hn : n < 16) : AddShape b c (n16 pfx he n keys ch) (n16 pfx he (n + 1) keys' ch')
  | n16Full {pfx : Bytes} {he : Bool} {keys : Fin 16 → UInt8} {ch : Fin 16 → Node}
      {ch' : Fin 48 → Node} (hasc : Ascending 16 keys) :
      AddShape b c (Node.n16 pfx he 16 keys ch)
        (n48 pfx he 17 (Function.update (slotOfKey 16 keys) b (UInt8.ofNat 16)) ch')
  | n48 {pfx : Bytes} {he : Bool} {n : ℕ} {idx : UInt8 → UInt8} {ch : Fin 48 → Node} {s : Fin 48}
      (hn : n < 48) (hfirst : (List.finRange 48).find? (fun s => (ch s).isEmpty) = some s) :
      AddShape b c (n48 pfx he n idx ch)
        (n48 pfx he (n + 1) (Function.update idx b (UInt8.ofNat s.val)) (Function.update ch s c))
  | n48Full {pfx : Bytes} {he : Bool} {idx : UInt8 → UInt8} {ch : Fin 48 → Node}
      {ch' : UInt8 → Node}
      (hch' : ∀ b', ch' b' = ((Node.n48 pfx he 48 idx ch).nodeChild b').getD empty) :
      AddShape b c (Node.n48 pfx he 48 idx ch) (n256 pfx he 49 (Function.update ch' b c))
  | n256 {pfx : Bytes} {he : Bool} {n : ℕ} {ch : UInt8 → Node} :
      AddShape b c (n256 pfx he n ch) (n256 pfx he ((n + 1) % 65536) (Function.update ch b c))

/-- A node with one child less. -/
inductive DelShape (b : UInt8) : Node → Node → Prop
  | n4 {pfx : Bytes} {he : Bool} {n : ℕ} {keys keys' : Fin 4 → UInt8} {ch ch' : Fin 4 → Node}
      (hn : 0 < n) : DelShape b (n4 pfx he n keys ch) (n4 pfx he (n - 1) keys' ch')
  | n16 {pfx : Bytes} {he : Bool} {n : ℕ} {keys keys' : Fin 16 → UInt8} {ch ch' : Fin 16 → Node} :
      DelShape b (n16 pfx he n keys ch) (n16 pfx he (n - 1) keys' ch')
  | n48 {pfx : Bytes} {he : Bool} {n : ℕ} {idx : UInt8 → UInt8} {ch : Fin 48 → Node} {s : Fin 48}
      (hs : idx b = UInt8.ofNat s.val) : DelShape b (n48 pfx he n idx ch)
        (n48 pfx he (n - 1) (Function.update idx b n48Nil) (Function.update ch s empty))
  | n256 {pfx : Bytes} {he : Bool} {n : ℕ} {ch : UInt8 → Node} :
      DelShape b (n256 pfx he n ch) (n256 pfx he n (Function.update ch b empty))

/-- The nodes that shrinking leaves as they are. -/
def Settled : Node → Prop
  | n4 _ he n _ _ => (n ≠ 0 ∨ he = true) ∧ (n ≠ 1 ∨ he = true)
  | n16 _ _ n _ _ => 4 < n
  | n48 _ _ n _ _ => 16 < n
  | n256 _ _ n _ => 48 < n
  | _ => True

/-- What a node shrinks to when it neither vanishes nor merges. -/
inductive Settles : Node → Node → Prop
  | stay {node : Node} (h : node.Settled) : Settles node node
  | toN4 {pfx : Bytes} {he : Bool} {n : ℕ} {keys : Fin 16 → UInt8} {ch : Fin 16 → Node}
      (hn : n ≤ 4) (hzero : n ≠ 0 ∨ he = true) :
      Settles (n16 pfx he n keys ch) (n16ToN4 pfx he n keys ch)
  | toN16 {pfx : Bytes} {he : Bool} {n : ℕ} {idx : UInt8 → UInt8} {ch : Fin 48 → Node}
      {keys : Fin 16 → UInt8} {ch' : Fin 16 → Node} (hn : n ≤ 16) :
      Settles (n48 pfx he n idx ch) (n16 pfx he n keys ch')

variable {node g node' : Node} {b : UInt8} {c c₀ : Node}

/-- In a dense array the first free slot is the one after the last child. -/
theorem find?_isEmpty_of_dense {n : ℕ} {ch : Fin 48 → Node}
    (h : ∀ s, (ch s).isEmpty = false ↔ s.val < n) (hn : n < 48) :
    (List.finRange 48).find? (fun s => (ch s).isEmpty) = some ⟨n, hn⟩ := by
  rw [List.find?_eq_some_iff_getElem]
  have hfree : (ch ⟨n, hn⟩).isEmpty = true := by
    by_contra hne
    exact absurd ((h ⟨n, hn⟩).mp (by simpa using hne)) (lt_irrefl n)
  refine ⟨hfree, n, by simpa using hn, ?_, fun j hj => ?_⟩
  · rw [List.getElem_finRange]
    rfl
  · have hfull := (h ⟨j, by omega⟩).mpr hj
    rw [List.getElem_finRange]
    simpa using hfull

/-- **Kinds after an addition**. -/
theorem Sound.addShape (h : node.Sound) (hin : node.isInner = true) (hsafe : node.AddsSafely)
    (hnone : node.nodeChild b = none) (hgrow : node.nodeMaybeGrow = some g)
    (hadd : g.nodeAddChild b c = some node') : AddShape b c node node' := by
  cases node with
  | empty => cases hin
  | leaf sfx => cases hin
  | n4 pfx he n keys ch =>
    rw [nodeMaybeGrow] at hgrow
    by_cases hn : n = 4
    · subst hn
      rw [if_pos rfl] at hgrow
      obtain rfl := Option.some.inj hgrow
      rw [n4ToN16, nodeAddChild, if_pos (by decide)] at hadd
      obtain rfl := Option.some.inj hadd
      exact .n4Full
    · have hlt : n < 4 := by have := SmallSound.le h; omega
      rw [if_neg hn] at hgrow
      obtain rfl := Option.some.inj hgrow
      rw [nodeAddChild, if_pos hlt] at hadd
      obtain rfl := Option.some.inj hadd
      exact .n4 hlt
  | n16 pfx he n keys ch =>
    rw [nodeMaybeGrow] at hgrow
    by_cases hn : n = 16
    · subst hn
      rw [if_pos rfl] at hgrow
      obtain rfl := Option.some.inj hgrow
      rw [n16ToN48_eq (SmallSound.ascending h), nodeAddChild, find?_isEmpty_of_dense (n := 16) ?_
        (by decide)] at hadd
      · obtain rfl := Option.some.inj hadd
        exact .n16Full (SmallSound.ascending h)
      · intro s
        by_cases hs : s.val < 16
        · rw [dif_pos ⟨hs, hs⟩, SmallSound.full h]
        · rw [dif_neg fun hlt => hs hlt.1]
          simp [isEmpty, hs]
    · have hlt : n < 16 := by have := SmallSound.le h; omega
      rw [if_neg hn] at hgrow
      obtain rfl := Option.some.inj hgrow
      rw [nodeAddChild, if_pos hlt] at hadd
      obtain rfl := Option.some.inj hadd
      exact .n16 hlt
  | n48 pfx he n idx ch =>
    rw [nodeMaybeGrow] at hgrow
    by_cases hn : n = 48
    · subst hn
      obtain ⟨ch', hgrow', hch'⟩ := IndexSound.n48ToN256 pfx he h (hsafe rfl)
      rw [if_pos rfl, hgrow'] at hgrow
      obtain rfl := Option.some.inj hgrow
      obtain rfl := Option.some.inj hadd
      exact .n48Full hch'
    · have hlt : n < 48 := by have := IndexSound.le h; omega
      rw [if_neg hn] at hgrow
      obtain rfl := Option.some.inj hgrow
      obtain ⟨s, hs⟩ := IndexSound.exists_free h hlt
      rw [nodeAddChild, hs, Option.map_some, Nat.mod_eq_of_lt (by omega)] at hadd
      obtain rfl := Option.some.inj hadd
      exact .n48 hlt hs
  | n256 pfx he n ch =>
    obtain rfl := Option.some.inj hgrow
    obtain rfl := Option.some.inj hadd
    exact .n256

/-- **Kinds after a deletion**. -/
theorem Sound.delShape (h : node.Sound) (hc : node.nodeChild b = some c₀)
    (hdel : (Node.setChild b empty node).nodeDelChild b = some node') : DelShape b node node' := by
  cases node with
  | empty => cases hc
  | leaf sfx => cases hc
  | n4 pfx he n keys ch =>
    obtain ⟨i, hi, -⟩ := Option.map_eq_some_iff.mp hc
    have hlt := ((findKey_eq_some h.ascending).mp hi).1
    simp only [Node.setChild, nodeDelChild, hi, Option.some.injEq] at hdel
    subst hdel
    exact .n4 (by omega)
  | n16 pfx he n keys ch =>
    obtain ⟨i, hi, -⟩ := Option.map_eq_some_iff.mp hc
    simp only [Node.setChild, nodeDelChild, hi, Option.some.injEq] at hdel
    subst hdel
    exact .n16
  | n48 pfx he n idx ch =>
    obtain ⟨s, hs, -⟩ := nodeChild_n48_eq_some.mp hc
    have hval : (idx b).toNat = s.val := by rw [hs, toNat_ofNat_slot]
    have hlt : (idx b).toNat < 48 := by have := s.isLt; omega
    have hslot : (⟨(idx b).toNat, hlt⟩ : Fin 48) = s := Fin.ext hval
    have hne : idx b ≠ n48Nil := by rw [hs]; exact ofNat_slot_ne_nil s
    have hpos : 0 < n := by
      rw [← IndexSound.count h]
      exact List.length_pos_of_mem (mem_usedBytes.mpr hne)
    have hle := IndexSound.le h
    rw [setChild_n48 hs, nodeDelChild, if_neg hne, dif_pos hlt, hslot, Function.update_idem,
      show (n + 255) % 256 = n - 1 by omega] at hdel
    obtain rfl := Option.some.inj hdel
    exact .n48 hs
  | n256 pfx he n ch =>
    simp only [Node.setChild, nodeDelChild, Function.update_self, isEmpty, if_true,
      Option.some.injEq] at hdel
    subst hdel
    exact .n256

/-- **Kinds after shrinking**. -/
theorem Sound.settles (h : node.Sound) (hin : node.isInner = true)
    (hshrink : node.nodeMaybeShrink = some node') (halike : Alike node node') :
    Settles node node' := by
  unfold nodeMaybeShrink at hshrink
  split at hshrink
  · obtain rfl := Option.some.inj hshrink
    cases halike.inner
  next hzero =>
  cases node with
  | empty => cases hin
  | leaf sfx => cases hin
  | n4 pfx he n keys ch =>
    simp only at hshrink
    split at hshrink
    · -- The merged child has a longer prefix, so it does not look like the node.
      obtain rfl := Option.some.inj hshrink
      have hlen := congrArg List.length halike.nodePrefix
      have hinner := halike.inner
      generalize ch 0 = c at hlen hinner
      cases c with
      | empty => cases hinner
      | leaf sfx => cases hinner
      | _ => simp [prependInto, Node.setPrefix, Node.nodePrefix] at hlen
    · next hmerge =>
      obtain rfl := Option.some.inj hshrink
      refine .stay ⟨?_, ?_⟩
      · by_contra hboth
        push Not at hboth
        exact hzero ⟨hboth.1, eq_false_of_ne_true hboth.2⟩
      · by_contra hboth
        push Not at hboth
        exact hmerge ⟨hboth.1, eq_false_of_ne_true hboth.2⟩
  | n16 pfx he n keys ch =>
    simp only at hshrink
    split at hshrink
    · next hn =>
      obtain rfl := Option.some.inj hshrink
      refine .toN4 hn ?_
      by_contra hboth
      push Not at hboth
      exact hzero ⟨hboth.1, eq_false_of_ne_true hboth.2⟩
    · next hn =>
      obtain rfl := Option.some.inj hshrink
      exact .stay (not_le.mp hn)
  | n48 pfx he n idx ch =>
    simp only at hshrink
    split at hshrink
    · next hn =>
      rw [IndexSound.n48ToN16_eq h hn] at hshrink
      obtain rfl := Option.some.inj hshrink
      exact .toN16 hn
    · next hn =>
      obtain rfl := Option.some.inj hshrink
      exact .stay (not_le.mp hn)
  | n256 pfx he n ch =>
    simp only at hshrink
    rw [if_neg (not_le.mpr h.1)] at hshrink
    obtain rfl := Option.some.inj hshrink
    exact .stay h.1

end Arkiv.Node
