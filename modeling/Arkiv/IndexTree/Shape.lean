import Mathlib
import Arkiv.IndexTree.Slots

/-!
# Sound inner nodes

What the operations on one inner node rely on, and what they do to the child
under each byte. Everything above this module looks at a node through its prefix,
its `has_end` flag and its children by byte.

## Main definitions

- `Node.Sound` — keys, index and counter of an inner node fit together
- `Node.View` — a node with one child changed
- `Node.Fork` — a fresh 4-node
- `Node.setChild_view`, `Node.add_view`, `Node.del_view`, `Node.shrink_cases` — the operations
-/

namespace Arkiv.Node

open ByteString

/-- A small node: its keys ascend, and the children stand before position `n`. -/
structure SmallSound {cap : ℕ} (n : ℕ) (keys : Fin cap → UInt8) (ch : Fin cap → Node) : Prop where
  le : n ≤ cap
  ascending : Ascending n keys
  full : ∀ i, (ch i).isEmpty = false ↔ i.val < n

/-- A 48-node: each index entry has a slot of its own, and exactly these slots have children. -/
structure IndexSound (n : ℕ) (idx : UInt8 → UInt8) (ch : Fin 48 → Node) : Prop where
  count : (usedBytes idx).length = n
  inRange : ∀ b, idx b ≠ n48Nil → (idx b).toNat < 48
  inj : ∀ b c, idx b ≠ n48Nil → idx b = idx c → b = c
  full : ∀ s, (ch s).isEmpty = false ↔ ∃ b, idx b = UInt8.ofNat s.val

/-- What the operations on an inner node rely on. The counter of a 256-node is only known to stay
    above the limit where the node would shrink. -/
def Sound : Node → Prop
  | n4 _ _ n keys ch => SmallSound n keys ch
  | n16 _ _ n keys ch => SmallSound n keys ch
  | n48 _ _ n idx ch => IndexSound n idx ch
  | n256 _ _ n _ => 48 < n ∧ n < 65536
  | _ => True

/-- Every index entry of a 48-node is absent or names one of the 48 slots. -/
def IndexInRange : Node → Prop
  | n48 _ _ _ idx _ => ∀ b, idx b ≠ n48Nil → (idx b).toNat < 48
  | _ => True

theorem Sound.indexInRange {node : Node} (h : node.Sound) : node.IndexInRange := by
  cases node with
  | n48 pfx he n idx ch => exact IndexSound.inRange h
  | _ => trivial

/-- The node with another child under `b`, or none. -/
structure View (node : Node) (b : UInt8) (x : Option Node) (node' : Node) : Prop where
  inner : node'.isInner = true
  nodePrefix : node'.nodePrefix = node.nodePrefix
  nodeHasEnd : node'.nodeHasEnd = node.nodeHasEnd
  child : ∀ b', node'.nodeChild b' = if b' = b then x else node.nodeChild b'

section Flags

variable {node : Node} {pfx : Bytes} {he : Bool} {b : UInt8} {c : Node}

theorem isEmpty_of_isInner (h : node.isInner = true) : node.isEmpty = false := by
  cases node <;> simp_all [isInner, isEmpty]

theorem isEmpty_eq_true : node.isEmpty = true ↔ node = empty := by
  cases node <;> simp [isEmpty]

theorem isEmpty_eq_false : node.isEmpty = false ↔ node ≠ empty := by
  cases node <;> simp [isEmpty]

@[simp] theorem isInner_setPrefix : (node.setPrefix pfx).isInner = node.isInner := by
  cases node <;> rfl

@[simp] theorem nodeHasEnd_setPrefix : (node.setPrefix pfx).nodeHasEnd = node.nodeHasEnd := by
  cases node <;> rfl

@[simp] theorem nodeChild_setPrefix : (node.setPrefix pfx).nodeChild b = node.nodeChild b := by
  cases node <;> rfl

theorem nodePrefix_setPrefix (h : node.isInner = true) : (node.setPrefix pfx).nodePrefix = pfx := by
  cases node <;> first | rfl | cases h

theorem setPrefix_setPrefix (q : Bytes) : (node.setPrefix pfx).setPrefix q = node.setPrefix q := by
  cases node <;> rfl

theorem setPrefix_nodePrefix : node.setPrefix node.nodePrefix = node := by
  cases node <;> rfl

@[simp] theorem isInner_setHasEnd : (node.setHasEnd he).isInner = node.isInner := by
  cases node <;> rfl

@[simp] theorem nodePrefix_setHasEnd : (node.setHasEnd he).nodePrefix = node.nodePrefix := by
  cases node <;> rfl

@[simp] theorem nodeChild_setHasEnd : (node.setHasEnd he).nodeChild b = node.nodeChild b := by
  cases node <;> rfl

theorem nodeHasEnd_setHasEnd (h : node.isInner = true) : (node.setHasEnd he).nodeHasEnd = he := by
  cases node <;> first | rfl | cases h

@[simp] theorem nodeNChildren_setHasEnd :
    (node.setHasEnd he).nodeNChildren = node.nodeNChildren := by
  cases node <;> rfl

theorem Sound.setPrefix (h : node.Sound) (pfx : Bytes) : (node.setPrefix pfx).Sound := by
  cases node <;> exact h

theorem Sound.setHasEnd (h : node.Sound) (he : Bool) : (node.setHasEnd he).Sound := by
  cases node <;> exact h

theorem isInner_of_nodeChild (h : node.nodeChild b = some c) : node.isInner = true := by
  cases node <;> first | rfl | cases h

end Flags

section Bytes

theorem mem_allBytes (b : UInt8) : b ∈ allBytes :=
  List.mem_map.mpr ⟨b.toNat, List.mem_range.mpr b.toNat_lt, UInt8.ofNat_toNat⟩

theorem allBytes_pairwise : allBytes.Pairwise (· < ·) := by
  rw [allBytes, List.pairwise_map]
  refine List.pairwise_lt_range.imp_of_mem fun {a c} ha hc hac => ?_
  rw [List.mem_range] at ha hc
  rw [UInt8.lt_iff_toNat_lt, UInt8.toNat_ofNat_of_lt' ha, UInt8.toNat_ofNat_of_lt' hc]
  exact hac

theorem nodup_allBytes : allBytes.Nodup :=
  allBytes_pairwise.imp UInt8.ne_of_lt

/-- The bytes with a property, counted as a set. -/
theorem length_filter_allBytes (p : UInt8 → Bool) :
    (allBytes.filter p).length = (Finset.univ.filter fun b => p b = true).card := by
  have hfin : (allBytes.filter p).toFinset = Finset.univ.filter fun b => p b = true := by
    ext b
    simp [mem_allBytes]
  rw [← hfin, List.toFinset_card_of_nodup (nodup_allBytes.filter _)]

theorem mem_usedBytes {idx : UInt8 → UInt8} {b : UInt8} : b ∈ usedBytes idx ↔ idx b ≠ n48Nil := by
  simp [usedBytes, mem_allBytes]

theorem length_usedBytes (idx : UInt8 → UInt8) :
    (usedBytes idx).length = (Finset.univ.filter fun b => idx b ≠ n48Nil).card := by
  rw [usedBytes, length_filter_allBytes]
  simp

theorem length_usedBytes_add {idx : UInt8 → UInt8} {b s : UInt8} (hb : idx b = n48Nil)
    (hs : s ≠ n48Nil) :
    (usedBytes (Function.update idx b s)).length = (usedBytes idx).length + 1 := by
  rw [length_usedBytes, length_usedBytes]
  have hset : (Finset.univ.filter fun c => Function.update idx b s c ≠ n48Nil) =
      insert b (Finset.univ.filter fun c => idx c ≠ n48Nil) := by
    ext c
    by_cases hc : c = b
    · simp [hc, hs]
    · simp [hc]
  rw [hset, Finset.card_insert_of_notMem (by simp [hb])]

theorem length_usedBytes_del {idx : UInt8 → UInt8} {b : UInt8} (hb : idx b ≠ n48Nil) :
    (usedBytes (Function.update idx b n48Nil)).length + 1 = (usedBytes idx).length := by
  rw [length_usedBytes, length_usedBytes]
  have hset : (Finset.univ.filter fun c => Function.update idx b n48Nil c ≠ n48Nil) =
      (Finset.univ.filter fun c => idx c ≠ n48Nil).erase b := by
    ext c
    by_cases hc : c = b
    · simp [hc]
    · simp [hc]
  rw [hset, Finset.card_erase_of_mem (by simpa using hb)]
  have hpos : 0 < (Finset.univ.filter fun c => idx c ≠ n48Nil).card :=
    Finset.card_pos.mpr ⟨b, by simpa using hb⟩
  omega

theorem toNat_ofNat_slot (s : Fin 48) : (UInt8.ofNat s.val).toNat = s.val :=
  UInt8.toNat_ofNat_of_lt' (lt_trans s.isLt (by decide))

theorem ofNat_slot_ne_nil (s : Fin 48) : UInt8.ofNat s.val ≠ n48Nil := by
  intro h
  have hs := toNat_ofNat_slot s
  rw [h] at hs
  have hlt := s.isLt
  rw [← hs] at hlt
  exact absurd hlt (by decide)

end Bytes

section Small

variable {cap n : ℕ} {keys : Fin cap → UInt8} {ch : Fin cap → Node} {b : UInt8} {c : Node}

theorem SmallSound.update (h : SmallSound n keys ch) {i : Fin cap} (hi : i.val < n)
    (hc : c.isEmpty = false) : SmallSound n keys (Function.update ch i c) := by
  refine ⟨h.le, h.ascending, fun j => ?_⟩
  by_cases hj : j = i
  · subst hj
    rw [Function.update_self]
    exact iff_of_true hc hi
  · rw [Function.update_of_ne hj]
    exact h.full j

theorem SmallSound.add (h : SmallSound n keys ch) (habsent : findKey n keys b = none)
    (hn : n < cap) (hc : c.isEmpty = false) :
    SmallSound (n + 1) (shiftIn (insertPos n keys b) n b keys)
      (shiftIn (insertPos n keys b) n c ch) := by
  refine ⟨hn, h.ascending.shiftIn (findKey_eq_none.mp habsent), fun i => ?_⟩
  have hpos : insertPos n keys b ≤ n := insertPos_le
  rcases lt_trichotomy i.val (insertPos n keys b) with hi | hi | hi
  · rw [shiftIn_of_lt hi, h.full]
    omega
  · rw [shiftIn_of_eq hi]
    exact iff_of_true hc (by omega)
  · by_cases hle : i.val ≤ n
    · rw [shiftIn_of_gt hi hle, h.full]
      simp only
      omega
    · rw [shiftIn_of_beyond hpos (by omega), h.full]
      omega

theorem SmallSound.del (h : SmallSound n keys ch) {p : Fin cap} (hp : p.val < n) :
    SmallSound (n - 1) (shiftOut p.val n keys) fun i =>
      if i.val + 1 = n then empty else shiftOut p.val n (Function.update ch p empty) i := by
  refine ⟨by have := h.le; omega, h.ascending.shiftOut h.le _, fun i => ?_⟩
  by_cases hlast : i.val + 1 = n
  · rw [if_pos hlast]
    exact iff_of_false (by simp [isEmpty]) (by omega)
  rw [if_neg hlast]
  by_cases hi : i.val < p.val
  · rw [shiftOut_of_lt hi, Function.update_of_ne (Fin.ne_of_lt hi), h.full]
    omega
  by_cases hn : i.val + 1 < n
  · rw [shiftOut_of_le (by omega) hn h.le,
      Function.update_of_ne (Fin.ne_of_gt (show p.val < i.val + 1 by omega)), h.full]
    simp only
    omega
  · have hne : i ≠ p := fun heq => by omega
    rw [shiftOut, dif_neg (by omega), Function.update_of_ne hne, h.full]
    omega

/-- The emptied slot does not matter to a deletion. -/
theorem shiftOut_update (h : SmallSound n keys ch) {p : Fin cap} {i : Fin cap}
    (hi : i.val + 1 < n) :
    (if i.val + 1 = n then empty else shiftOut p.val n (Function.update ch p empty) i) =
      shiftOut p.val n ch i := by
  rw [if_neg (by omega)]
  by_cases hip : i.val < p.val
  · rw [shiftOut_of_lt hip, shiftOut_of_lt hip, Function.update_of_ne (Fin.ne_of_lt hip)]
  · rw [shiftOut_of_le (by omega) hi h.le, shiftOut_of_le (by omega) hi h.le,
      Function.update_of_ne (Fin.ne_of_gt (show p.val < i.val + 1 by omega))]

/-- A small node in a smaller or larger array. -/
theorem SmallSound.resize {cap' : ℕ} {keys' : Fin cap' → UInt8} {ch' : Fin cap' → Node}
    (h : SmallSound n keys ch) (hn : n ≤ cap')
    (hkeys : ∀ i (hi : i < n), keys' ⟨i, by omega⟩ = keys ⟨i, by have := h.le; omega⟩)
    (hch : ∀ i (hi : i < n), ch' ⟨i, by omega⟩ = ch ⟨i, by have := h.le; omega⟩)
    (hrest : ∀ i, n ≤ i.val → (ch' i).isEmpty = true) :
    SmallSound n keys' ch' ∧ ∀ b, (findKey n keys' b).map ch' = (findKey n keys b).map ch := by
  have hle := h.le
  have hasc : Ascending n keys' := h.ascending.copy fun i hi => ⟨_, rfl, hkeys i.val hi⟩
  refine ⟨⟨hn, hasc, fun i => ?_⟩, fun b => Option.ext fun x => ?_⟩
  · by_cases hi : i.val < n
    · rw [show ch' i = ch ⟨i.val, by omega⟩ from hch i.val hi, h.full]
    · simp [hrest i (by omega), hi]
  · rw [map_findKey_eq_some hasc, map_findKey_eq_some h.ascending]
    constructor
    · rintro ⟨i, hi, hkey, hx⟩
      exact ⟨⟨i.val, by omega⟩, hi, (hkeys i.val hi).symm.trans hkey, (hch i.val hi).symm.trans hx⟩
    · rintro ⟨i, hi, hkey, hx⟩
      exact ⟨⟨i.val, by omega⟩, hi, (hkeys i.val hi).trans hkey, (hch i.val hi).trans hx⟩

end Small

section Index

variable {pfx : Bytes} {he : Bool} {n : ℕ} {idx : UInt8 → UInt8} {ch : Fin 48 → Node} {b : UInt8}
  {c : Node}

theorem nodeChild_n48_eq_some : (n48 pfx he n idx ch).nodeChild b = some c ↔
    ∃ s : Fin 48, idx b = UInt8.ofNat s.val ∧ ch s = c := by
  simp only [nodeChild]
  constructor
  · intro h
    split at h
    · next hlt => exact ⟨⟨(idx b).toNat, hlt⟩, UInt8.ofNat_toNat.symm, Option.some.inj h⟩
    · cases h
  · rintro ⟨s, hs, rfl⟩
    have hval : (idx b).toNat = s.val := by rw [hs, toNat_ofNat_slot]
    rw [dif_pos (by have := s.isLt; omega)]
    exact congrArg (fun t => some (ch t)) (Fin.ext hval)

theorem nodeChild_n48_of_nil (h : idx b = n48Nil) : (n48 pfx he n idx ch).nodeChild b = none := by
  simp only [nodeChild]
  exact dif_neg (by rw [h]; decide)

theorem IndexSound.nodeChild_eq_none (h : IndexSound n idx ch) :
    (n48 pfx he n idx ch).nodeChild b = none ↔ idx b = n48Nil := by
  constructor
  · intro hnone
    by_contra hne
    simp only [nodeChild] at hnone
    rw [dif_pos (h.inRange b hne)] at hnone
    cases hnone
  · exact nodeChild_n48_of_nil

theorem IndexSound.slot_inj (h : IndexSound n idx ch) {b' : UInt8} {s : Fin 48}
    (hb : idx b = UInt8.ofNat s.val) (hb' : idx b' = UInt8.ofNat s.val) : b = b' :=
  h.inj b b' (by rw [hb]; exact ofNat_slot_ne_nil s) (hb.trans hb'.symm)

theorem IndexSound.le (h : IndexSound n idx ch) : n ≤ 48 := by
  rw [← h.count, length_usedBytes]
  have hcard := Finset.card_le_card_of_injOn (s := Finset.univ.filter fun b => idx b ≠ n48Nil)
    (t := Finset.range 48) (fun b => (idx b).toNat) (fun b hb => ?_) (fun b hb b' hb' heq => ?_)
  · simpa using hcard
  · simpa using h.inRange b (by simpa using hb)
  · exact h.inj b b' (by simpa using hb) (UInt8.toNat_inj.mp heq)

/-- A node that is not full has a free slot. -/
theorem IndexSound.exists_free (h : IndexSound n idx ch) (hn : n < 48) :
    ∃ s, (List.finRange 48).find? (fun s => (ch s).isEmpty) = some s := by
  by_contra hnone
  have hfull : ∀ s : Fin 48, ∃ b, idx b = UInt8.ofNat s.val := by
    intro s
    rw [← h.full]
    cases hs : (List.finRange 48).find? (fun s => (ch s).isEmpty) with
    | some t => exact absurd ⟨t, hs⟩ hnone
    | none => simpa using List.find?_eq_none.mp hs s (List.mem_finRange s)
  choose byte hbyte using hfull
  have hcard := Finset.card_le_card_of_injOn (s := (Finset.univ : Finset (Fin 48)))
    (t := Finset.univ.filter fun b => idx b ≠ n48Nil) byte (fun s _ => ?_) (fun s _ t _ heq => ?_)
  · rw [← length_usedBytes, h.count] at hcard
    simp only [Finset.card_univ, Fintype.card_fin] at hcard
    omega
  · simp [hbyte s, ofNat_slot_ne_nil]
  · have hst : UInt8.ofNat s.val = UInt8.ofNat t.val := by rw [← hbyte s, ← hbyte t, heq]
    have hval := congrArg UInt8.toNat hst
    rw [toNat_ofNat_slot, toNat_ofNat_slot] at hval
    exact Fin.ext hval

theorem IndexSound.update (h : IndexSound n idx ch) {s : Fin 48} (hs : idx b = UInt8.ofNat s.val)
    (hc : c.isEmpty = false) : IndexSound n idx (Function.update ch s c) := by
  refine ⟨h.count, h.inRange, h.inj, fun t => ?_⟩
  by_cases ht : t = s
  · subst ht
    rw [Function.update_self]
    exact iff_of_true hc ⟨b, hs⟩
  · rw [Function.update_of_ne ht]
    exact h.full t

theorem IndexSound.unused_of_free (h : IndexSound n idx ch) {s : Fin 48}
    (hs : (ch s).isEmpty = true) (b : UInt8) : idx b ≠ UInt8.ofNat s.val := by
  intro hb
  have hfull := (h.full s).mpr ⟨b, hb⟩
  rw [hs] at hfull
  cases hfull

theorem IndexSound.add (h : IndexSound n idx ch) (hb : idx b = n48Nil) {s : Fin 48}
    (hs : (ch s).isEmpty = true) (hc : c.isEmpty = false) :
    IndexSound (n + 1) (Function.update idx b (UInt8.ofNat s.val)) (Function.update ch s c) := by
  have hfree := h.unused_of_free hs
  refine ⟨?_, fun a ha => ?_, fun a a' ha heq => ?_, fun t => ?_⟩
  · rw [length_usedBytes_add hb (ofNat_slot_ne_nil s), h.count]
  · by_cases hab : a = b
    · rw [hab, Function.update_self, toNat_ofNat_slot]
      exact s.isLt
    · rw [Function.update_of_ne hab] at ha ⊢
      exact h.inRange a ha
  · by_cases hab : a = b
    · by_cases hab' : a' = b
      · rw [hab, hab']
      · rw [hab, Function.update_self, Function.update_of_ne hab'] at heq
        exact absurd heq.symm (hfree a')
    · by_cases hab' : a' = b
      · rw [hab', Function.update_self, Function.update_of_ne hab] at heq
        exact absurd heq (hfree a)
      · rw [Function.update_of_ne hab] at ha heq
        rw [Function.update_of_ne hab'] at heq
        exact h.inj a a' ha heq
  · by_cases ht : t = s
    · rw [ht, Function.update_self]
      exact iff_of_true hc ⟨b, Function.update_self b _ idx⟩
    · rw [Function.update_of_ne ht, h.full]
      constructor
      · rintro ⟨a, ha⟩
        have hab : a ≠ b := by
          rintro rfl
          exact ofNat_slot_ne_nil t (ha.symm.trans hb)
        exact ⟨a, by rw [Function.update_of_ne hab, ha]⟩
      · rintro ⟨a, ha⟩
        by_cases hab : a = b
        · rw [hab, Function.update_self] at ha
          have hval := congrArg UInt8.toNat ha
          rw [toNat_ofNat_slot, toNat_ofNat_slot] at hval
          exact absurd (Fin.ext hval.symm) ht
        · rw [Function.update_of_ne hab] at ha
          exact ⟨a, ha⟩

theorem IndexSound.del (h : IndexSound n idx ch) {s : Fin 48} (hs : idx b = UInt8.ofNat s.val) :
    IndexSound (n - 1) (Function.update idx b n48Nil) (Function.update ch s empty) := by
  have hb : idx b ≠ n48Nil := by rw [hs]; exact ofNat_slot_ne_nil s
  refine ⟨?_, fun a ha => ?_, fun a a' ha heq => ?_, fun t => ?_⟩
  · have hlen := length_usedBytes_del hb
    rw [h.count] at hlen
    omega
  · by_cases hab : a = b
    · rw [hab, Function.update_self] at ha
      exact absurd rfl ha
    · rw [Function.update_of_ne hab] at ha ⊢
      exact h.inRange a ha
  · have hab : a ≠ b := by
      rintro rfl
      exact ha (Function.update_self a _ idx)
    rw [Function.update_of_ne hab] at ha heq
    by_cases hab' : a' = b
    · rw [hab', Function.update_self] at heq
      exact absurd heq ha
    · rw [Function.update_of_ne hab'] at heq
      exact h.inj a a' ha heq
  · by_cases ht : t = s
    · rw [ht, Function.update_self]
      refine iff_of_false (by simp [isEmpty]) ?_
      rintro ⟨a, ha⟩
      by_cases hab : a = b
      · rw [hab, Function.update_self] at ha
        exact ofNat_slot_ne_nil s ha.symm
      · rw [Function.update_of_ne hab] at ha
        exact hab (h.slot_inj ha hs)
    · rw [Function.update_of_ne ht, h.full]
      constructor
      · rintro ⟨a, ha⟩
        have hab : a ≠ b := by
          rintro rfl
          have hval := congrArg UInt8.toNat (ha.symm.trans hs)
          rw [toNat_ofNat_slot, toNat_ofNat_slot] at hval
          exact ht (Fin.ext hval)
        exact ⟨a, by rw [Function.update_of_ne hab, ha]⟩
      · rintro ⟨a, ha⟩
        have hab : a ≠ b := by
          rintro rfl
          rw [Function.update_self] at ha
          exact ofNat_slot_ne_nil t ha.symm
        rw [Function.update_of_ne hab] at ha
        exact ⟨a, ha⟩

theorem slotsInRange_iff : slotsInRange idx = true ↔ ∀ b, idx b ≠ n48Nil → (idx b).toNat < 48 := by
  rw [slotsInRange, List.all_eq_true]
  refine forall_congr' fun b => ?_
  by_cases hb : idx b = n48Nil <;> simp [hb, mem_allBytes]

theorem IndexSound.slotsInRange (h : IndexSound n idx ch) : slotsInRange idx = true :=
  slotsInRange_iff.mpr h.inRange

end Index

section Conversions

variable {pfx : Bytes} {he : Bool} {n : ℕ}

theorem SmallSound.n4ToN16 (pfx : Bytes) (he : Bool) {keys : Fin 4 → UInt8} {ch : Fin 4 → Node} (h : SmallSound n keys ch) :
    (n4ToN16 pfx he n keys ch).Sound ∧
      ∀ b, (n4ToN16 pfx he n keys ch).nodeChild b = (findKey n keys b).map ch := by
  have hle := h.le
  refine h.resize (by omega) (fun i hi => ?_) (fun i hi => ?_) (fun i hi => ?_)
  · exact dif_pos ⟨hi, show i < 4 by omega⟩
  · have h4 : i < 4 := by omega
    exact dif_pos h4
  · by_cases h4 : i.val < 4
    · rw [dif_pos h4]
      have hfull := (h.full ⟨i.val, h4⟩).mp
      by_contra hne
      exact absurd (hfull (by simpa using hne)) (not_lt.mpr hi)
    · rw [dif_neg h4]
      rfl

theorem SmallSound.n16ToN4 (pfx : Bytes) (he : Bool) {keys : Fin 16 → UInt8} {ch : Fin 16 → Node} (h : SmallSound n keys ch)
    (hn : n ≤ 4) : (n16ToN4 pfx he n keys ch).Sound ∧
      ∀ b, (n16ToN4 pfx he n keys ch).nodeChild b = (findKey n keys b).map ch := by
  refine h.resize hn (fun i hi => ?_) (fun i hi => ?_) (fun i hi => ?_)
  · exact if_pos hi
  · exact if_pos hi
  · rw [if_neg (by omega)]
    rfl

/-- In ascending keys the last slot of a byte is the first. -/
theorem getLast?_filter_keys {cap : ℕ} {keys : Fin cap → UInt8} (h : Ascending n keys) (b : UInt8) :
    ((List.finRange cap).filter fun i => i.val < n && keys i == b).getLast? = findKey n keys b := by
  apply Option.ext
  intro i
  rw [findKey_eq_some h]
  constructor
  · intro hlast
    simpa using List.mem_of_getLast? hlast
  · intro hi
    cases hlast : ((List.finRange cap).filter fun i => i.val < n && keys i == b).getLast? with
    | none =>
      rw [List.getLast?_eq_none_iff, List.filter_eq_nil_iff] at hlast
      exact absurd (by simpa using hi) (hlast i (List.mem_finRange i))
    | some j =>
      have hj : j.val < n ∧ keys j = b := by simpa using List.mem_of_getLast? hlast
      rw [h.inj hj.1 hi.1 (hj.2.trans hi.2.symm)]

theorem ofNat_inj_of_lt {i j : ℕ} (hi : i < 256) (hj : j < 256)
    (h : UInt8.ofNat i = UInt8.ofNat j) : i = j := by
  have hval := congrArg UInt8.toNat h
  rwa [UInt8.toNat_ofNat_of_lt' hi, UInt8.toNat_ofNat_of_lt' hj] at hval

theorem ofNat_ne_nil {i : ℕ} (hi : i < 255) : UInt8.ofNat i ≠ n48Nil := by
  intro h
  have hval := ofNat_inj_of_lt (j := 255) (by omega) (by omega) h
  omega

/-- The index entry of a byte after the growth: the slot of the key. -/
def slotOfKey {cap : ℕ} (n : ℕ) (keys : Fin cap → UInt8) (b : UInt8) : UInt8 :=
  (findKey n keys b).elim n48Nil fun i => UInt8.ofNat i.val

theorem slotOfKey_eq_nil {keys : Fin 16 → UInt8} {b : UInt8} :
    slotOfKey n keys b = n48Nil ↔ findKey n keys b = none := by
  unfold slotOfKey
  cases findKey n keys b with
  | none => simp
  | some i =>
    have := i.isLt
    simpa using ofNat_ne_nil (by omega)

theorem slotOfKey_eq_ofNat {keys : Fin 16 → UInt8} {b : UInt8} {s : ℕ} (hs : s < 48) :
    slotOfKey n keys b = UInt8.ofNat s ↔ ∃ i, findKey n keys b = some i ∧ i.val = s := by
  unfold slotOfKey
  cases findKey n keys b with
  | none => simpa using (ofNat_ne_nil (by omega : s < 255)).symm
  | some i =>
    have := i.isLt
    simp only [Option.elim_some, Option.some.injEq, exists_eq_left']
    exact ⟨ofNat_inj_of_lt (by omega) (by omega), fun h => by rw [h]⟩

theorem n16ToN48_eq {keys : Fin 16 → UInt8} {ch : Fin 16 → Node} (h : Ascending n keys) :
    n16ToN48 pfx he n keys ch = n48 pfx he n (slotOfKey n keys) fun s =>
      if h : s.val < n ∧ s.val < 16 then ch ⟨s, h.2⟩ else empty := by
  unfold n16ToN48
  congr 1
  funext b
  rw [getLast?_filter_keys h, slotOfKey]
  cases findKey n keys b <;> rfl

/-- The used bytes are the first `n` keys. -/
theorem length_usedBytes_slotOfKey {n : ℕ} {keys : Fin 16 → UInt8} (hn : n ≤ 16)
    (h : Ascending n keys) : (usedBytes (slotOfKey n keys)).length = n := by
  rw [length_usedBytes]
  have himage : (Finset.univ.filter fun b => slotOfKey n keys b ≠ n48Nil) =
      (Finset.univ.filter fun i : Fin 16 => i.val < n).image keys := by
    ext b
    simp only [ne_eq, slotOfKey_eq_nil, Finset.mem_filter, Finset.mem_univ, true_and,
      Finset.mem_image, findKey_eq_none, not_forall, not_not, exists_prop]
  rw [himage, Finset.card_image_of_injOn fun i hi j hj heq =>
    h.inj (by simpa using hi) (by simpa using hj) heq, Fin.card_filter_val_lt]
  omega

theorem SmallSound.n16ToN48 (pfx : Bytes) (he : Bool) {keys : Fin 16 → UInt8} {ch : Fin 16 → Node}
    (h : SmallSound n keys ch) : (n16ToN48 pfx he n keys ch).Sound ∧
      ∀ b, (n16ToN48 pfx he n keys ch).nodeChild b = (findKey n keys b).map ch := by
  have hle := h.le
  have hasc := h.ascending
  rw [n16ToN48_eq hasc]
  refine ⟨⟨?_, fun b hb => ?_, fun b c hb heq => ?_, fun s => ?_⟩, fun b => ?_⟩
  · exact length_usedBytes_slotOfKey hle hasc
  · rw [ne_eq, slotOfKey_eq_nil] at hb
    obtain ⟨i, hi⟩ := Option.ne_none_iff_exists'.mp hb
    have := i.isLt
    rw [slotOfKey, hi, Option.elim_some,
      UInt8.toNat_ofNat_of_lt' (show i.val < 256 by omega)]
    omega
  · rw [ne_eq, slotOfKey_eq_nil] at hb
    obtain ⟨i, hi⟩ := Option.ne_none_iff_exists'.mp hb
    have := i.isLt
    rw [slotOfKey, hi, Option.elim_some] at heq
    obtain ⟨j, hj, hij⟩ := (slotOfKey_eq_ofNat (by omega)).mp heq.symm
    obtain rfl : j = i := Fin.ext hij
    rw [← ((findKey_eq_some hasc).mp hi).2, ← ((findKey_eq_some hasc).mp hj).2]
  · have hs := s.isLt
    by_cases hsn : s.val < n
    · rw [dif_pos ⟨hsn, by omega⟩]
      refine iff_of_true ((h.full _).mpr hsn) ⟨keys ⟨s.val, by omega⟩, ?_⟩
      exact (slotOfKey_eq_ofNat hs).mpr ⟨_, (findKey_eq_some hasc).mpr ⟨hsn, rfl⟩, rfl⟩
    · rw [dif_neg fun hlt => hsn hlt.1]
      refine iff_of_false (by simp [isEmpty]) ?_
      rintro ⟨b, hb⟩
      obtain ⟨i, hi, his⟩ := (slotOfKey_eq_ofNat hs).mp hb
      have := ((findKey_eq_some hasc).mp hi).1
      omega
  · apply Option.ext
    intro x
    rw [nodeChild_n48_eq_some, Option.map_eq_some_iff]
    constructor
    · rintro ⟨s, hs, hx⟩
      obtain ⟨i, hi, his⟩ := (slotOfKey_eq_ofNat s.isLt).mp hs
      have hlt := ((findKey_eq_some hasc).mp hi).1
      rw [dif_pos ⟨by omega, by have := i.isLt; omega⟩] at hx
      refine ⟨i, hi, ?_⟩
      rw [← hx]
      exact congrArg ch (Fin.ext his)
    · rintro ⟨i, hi, hx⟩
      have hlt := ((findKey_eq_some hasc).mp hi).1
      have := i.isLt
      refine ⟨⟨i.val, by omega⟩, (slotOfKey_eq_ofNat (by omega)).mpr ⟨i, hi, rfl⟩, ?_⟩
      rw [dif_pos ⟨hlt, i.isLt⟩]
      exact hx

theorem usedBytes_pairwise (idx : UInt8 → UInt8) : (usedBytes idx).Pairwise (· < ·) :=
  allBytes_pairwise.filter _

section Slots

variable {idx : UInt8 → UInt8} {ch : Fin 48 → Node}

theorem IndexSound.exists_slot (h : IndexSound n idx ch) {b : UInt8} (hb : idx b ≠ n48Nil) :
    ∃ s : Fin 48, idx b = UInt8.ofNat s.val :=
  ⟨⟨(idx b).toNat, h.inRange b hb⟩, UInt8.ofNat_toNat.symm⟩

/-- The children of a shrunk node, as the conversion takes them out of their slots. -/
def takenChild (idx : UInt8 → UInt8) (ch : Fin 48 → Node) (i : Fin 16) : Node :=
  match (usedBytes idx)[i.val]? with
  | none => empty
  | some b =>
    if ((usedBytes idx).take i).any fun c => idx c == idx b then empty
    else if h : (idx b).toNat < 48 then ch ⟨(idx b).toNat, h⟩ else empty

theorem IndexSound.n48ToN16_eq (h : IndexSound n idx ch) (hn : n ≤ 16) :
    n48ToN16 pfx he n idx ch =
      some (n16 pfx he n (fun i => (usedBytes idx).getD i 0) (takenChild idx ch)) := by
  unfold n48ToN16
  dsimp only
  rw [if_pos (by rw [h.slotsInRange, h.count]; simpa using hn)]
  rfl

theorem IndexSound.takenChild_eq (h : IndexSound n idx ch) {i : Fin 16} {s : Fin 48} {b : UInt8}
    (hi : (usedBytes idx)[i.val]? = some b) (hs : idx b = UInt8.ofNat s.val) :
    takenChild idx ch i = ch s := by
  unfold takenChild
  rw [hi]
  have hother : (((usedBytes idx).take i).any fun c => idx c == idx b) = false := by
    rw [List.any_eq_false]
    intro c hc
    obtain ⟨hlt, hget⟩ := List.getElem?_eq_some_iff.mp hi
    have hsorted := usedBytes_pairwise idx
    rw [← List.take_append_drop i.val (usedBytes idx), List.pairwise_append] at hsorted
    have hmem : b ∈ (usedBytes idx).drop i.val := by
      rw [List.mem_drop_iff_getElem]
      exact ⟨0, by omega, by simpa using hget⟩
    have hlt' := hsorted.2.2 c hc b hmem
    have hc' := mem_usedBytes.mp (List.mem_of_mem_take hc)
    rw [beq_iff_eq]
    exact fun heq => UInt8.ne_of_lt hlt' (h.inj c b hc' heq)
  have hval : (idx b).toNat = s.val := by rw [hs, toNat_ofNat_slot]
  dsimp only
  rw [hother, if_neg (by simp), dif_pos (by have := s.isLt; omega)]
  exact congrArg ch (Fin.ext hval)

theorem IndexSound.n48ToN16 (pfx : Bytes) (he : Bool) (h : IndexSound n idx ch) (hn : n ≤ 16) :
    SmallSound n (fun i : Fin 16 => (usedBytes idx).getD i 0) (takenChild idx ch) ∧
      ∀ b, (findKey n (fun i : Fin 16 => (usedBytes idx).getD i 0) b).map (takenChild idx ch) =
        (n48 pfx he n idx ch).nodeChild b := by
  have hget : ∀ i : Fin 16, i.val < n → ∃ b, (usedBytes idx)[i.val]? = some b ∧
      (usedBytes idx).getD i 0 = b ∧ ∃ s : Fin 48, idx b = UInt8.ofNat s.val ∧
        takenChild idx ch i = ch s := by
    intro i hi
    have hlt : i.val < (usedBytes idx).length := by rw [h.count]; exact hi
    have hb := mem_usedBytes.mp (List.getElem_mem hlt)
    obtain ⟨s, hs⟩ := h.exists_slot hb
    have hsome := List.getElem?_eq_getElem hlt
    exact ⟨_, hsome, List.getD_eq_getElem _ _ hlt, s, hs, h.takenChild_eq hsome hs⟩
  have hasc : Ascending n fun i : Fin 16 => (usedBytes idx).getD i 0 := by
    intro i j hij hj
    have hij' : i.val < j.val := hij
    have hlen := h.count
    show (usedBytes idx).getD i 0 < (usedBytes idx).getD j 0
    rw [List.getD_eq_getElem _ _ (show i.val < (usedBytes idx).length by omega),
      List.getD_eq_getElem _ _ (show j.val < (usedBytes idx).length by omega)]
    exact List.pairwise_iff_getElem.mp (usedBytes_pairwise idx) _ _ _ _ hij'
  refine ⟨⟨hn, hasc, fun i => ?_⟩, fun b => Option.ext fun x => ?_⟩
  · by_cases hi : i.val < n
    · obtain ⟨b, -, -, s, hs, heq⟩ := hget i hi
      rw [heq]
      exact iff_of_true ((h.full s).mpr ⟨b, hs⟩) hi
    · refine iff_of_false ?_ hi
      have hnone : (usedBytes idx)[i.val]? = none := by
        rw [List.getElem?_eq_none_iff, h.count]
        omega
      simp [takenChild, hnone, isEmpty]
  · rw [map_findKey_eq_some hasc, nodeChild_n48_eq_some]
    constructor
    · rintro ⟨i, hi, hkey, hx⟩
      obtain ⟨b', -, hb', s, hs, heq⟩ := hget i hi
      exact ⟨s, by rw [← hkey, hb', hs], by rw [← heq, hx]⟩
    · rintro ⟨s, hs, hx⟩
      have hmem : b ∈ usedBytes idx := mem_usedBytes.mpr (by rw [hs]; exact ofNat_slot_ne_nil s)
      obtain ⟨k, hk, hkb⟩ := List.mem_iff_getElem.mp hmem
      have hkn : k < n := by rw [← h.count]; exact hk
      have hsome : (usedBytes idx)[k]? = some b := by rw [List.getElem?_eq_getElem hk, hkb]
      refine ⟨⟨k, by omega⟩, hkn, ?_, ?_⟩
      · show (usedBytes idx).getD k 0 = b
        rw [List.getD_eq_getElem _ _ hk, hkb]
      · rw [h.takenChild_eq (i := ⟨k, by omega⟩) hsome hs, hx]

theorem IndexSound.slotByte_eq (h : IndexSound n idx ch) {b : UInt8} {s : Fin 48}
    (hs : idx b = UInt8.ofNat s.val) : slotByte idx s = b := by
  unfold slotByte
  cases hlast : (allBytes.filter fun c => idx c == UInt8.ofNat s.val).getLast? with
  | none =>
    rw [List.getLast?_eq_none_iff, List.filter_eq_nil_iff] at hlast
    exact absurd (by simpa using hs) (hlast b (mem_allBytes b))
  | some c =>
    have hc := List.mem_of_getLast? hlast
    simp only [List.mem_filter, beq_iff_eq] at hc
    exact h.slot_inj hc.2 hs

theorem slotByte_eq_nil {s : Fin 48} (hs : ∀ b, idx b ≠ UInt8.ofNat s.val) :
    slotByte idx s = n48Nil := by
  unfold slotByte
  have hnil : (allBytes.filter fun c => idx c == UInt8.ofNat s.val) = [] := by
    rw [List.filter_eq_nil_iff]
    intro b _
    simpa using hs b
  rw [hnil]
  rfl

/-- **Growth to a 256-node**: every byte but `0xFF` keeps its child. -/
theorem IndexSound.n48ToN256 (pfx : Bytes) (he : Bool) (h : IndexSound n idx ch) (hff : idx 0xFF = n48Nil) :
    ∃ ch', n48ToN256 pfx he n idx ch = some (n256 pfx he n ch') ∧
      ∀ b, ch' b = ((n48 pfx he n idx ch).nodeChild b).getD empty := by
  unfold Node.n48ToN256
  rw [if_pos h.slotsInRange]
  refine ⟨_, rfl, fun b => ?_⟩
  -- The source looks a slot up by its byte, and `0xFF` is also the mark of a free slot.
  have hfound : ∀ s : Fin 48, (slotByte idx s != n48Nil && slotByte idx s == b) = true ↔
      idx b = UInt8.ofNat s.val := by
    intro s
    by_cases hused : ∃ c, idx c = UInt8.ofNat s.val
    · obtain ⟨c, hc⟩ := hused
      have hne : c ≠ n48Nil := by
        rintro rfl
        exact ofNat_slot_ne_nil s (hc.symm.trans hff)
      rw [h.slotByte_eq hc]
      simp only [bne_iff_ne, ne_eq, hne, not_false_eq_true, beq_iff_eq, Bool.and_eq_true, true_and]
      constructor
      · rintro rfl
        exact hc
      · intro hb
        exact h.slot_inj hc hb
    · push Not at hused
      rw [slotByte_eq_nil hused]
      simpa using hused b
  cases hfind : (List.finRange 48).find? fun s => slotByte idx s != n48Nil && slotByte idx s == b with
  | some s =>
    have hmatch := @List.find?_some _ (fun s => slotByte idx s != n48Nil && slotByte idx s == b)
      _ _ hfind
    have hs := (hfound s).mp hmatch
    rw [nodeChild_n48_eq_some.mpr ⟨s, hs, rfl⟩]
    rfl
  | none =>
    have hnone : (n48 pfx he n idx ch).nodeChild b = none := by
      rw [h.nodeChild_eq_none]
      by_contra hne
      obtain ⟨s, hs⟩ := h.exists_slot hne
      exact absurd ((hfound s).mpr hs) (List.find?_eq_none.mp hfind s (List.mem_finRange s))
    rw [hnone]
    rfl

end Slots

end Conversions

end Arkiv.Node
