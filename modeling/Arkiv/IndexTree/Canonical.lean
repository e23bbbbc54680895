import Mathlib
import Arkiv.IndexTree.RoundTrip

/-!
# One encoding a key set

The kind of a node follows from the number of its children and its prefix from
the keys below it, so that trees with the same keys are written alike, except
for the slots of 48-nodes: they come in the order of insertion. Where children
only arrive above the others and leave from the top the slots follow the bytes.

## Main definitions

- `Node.Rising`, `Node.Canonical` — slots that follow the bytes, and the shape of a node
- `Node.serInner` — the encoding of an inner node from what lies below its bytes
- `Node.serNode_eq_of_holds` — canonical trees with the same keys are written alike
- `encodeAlike_run` — the same for any two runs of calls that keep the shape
-/

namespace Arkiv

open ByteString

namespace Node

/-- The slots of a 48-node follow its bytes, without a gap. -/
structure Rising (n : ℕ) (idx : UInt8 → UInt8) : Prop where
  lt : SlotsBelow n idx
  mono : ∀ b b', idx b ≠ n48Nil → idx b' ≠ n48Nil → b < b' → (idx b).toNat < (idx b').toNat

/-- The shape that the keys below a node determine. -/
def Canonical : Node → Prop
  | n4 _ he n _ _ => 1 ≤ n ∧ (n = 1 → he = true)
  | n16 _ _ n _ _ => 4 < n
  | n48 _ _ n idx _ => 16 < n ∧ Rising n idx
  | n256 _ _ _ ch => 48 < (fullBytes ch).length
  | _ => True

/-- A child comes into a 48-node above the others, no child is lost and no counter overflows. -/
def AddsLast : Node → UInt8 → Prop
  | n16 _ _ n keys _, b => n = 16 → ∀ i, keys i < b
  | n48 _ _ n idx _, b => (n = 48 → idx 0xFF = n48Nil) ∧ (n < 48 → ∀ b', idx b' ≠ n48Nil → b' < b)
  | n256 _ _ n _, _ => n + 1 < 65536
  | _, _ => True

/-- A child leaves the last slot of a 48-node, where it does not shrink; no node is left without a
    child, and no 256-node with too few. -/
def DropsLast : Node → UInt8 → Prop
  | n4 _ he n _ _, _ => he = true → n ≠ 1
  | n48 _ _ n idx _, b => n ≤ 17 ∨ (idx b).toNat + 1 = n
  | n256 _ _ _ ch, _ => 49 < (fullBytes ch).length
  | _, _ => True

variable {node x y : Node} {b : UInt8} {c : Node} {pfx : Bytes} {he : Bool} {n : ℕ}

section Slots

variable {idx : UInt8 → UInt8} {ch : Fin 48 → Node}

/-- Ascending numbers below a bound, as many as the bound. -/
theorem eq_range_of_pairwise {l : List ℕ} (hl : l.Pairwise (· < ·)) (hlt : ∀ m ∈ l, m < n)
    (hlen : l.length = n) : l = List.range n := by
  have hnodup : l.Nodup := hl.imp fun h => Nat.ne_of_lt h
  have hsub : l.Subperm (List.range n) :=
    List.subperm_of_subset hnodup fun m hm => List.mem_range.mpr (hlt m hm)
  have hperm : l.Perm (List.range n) :=
    hsub.perm_of_length_le (by rw [List.length_range, hlen])
  exact hperm.eq_of_pairwise (fun a b _ _ hab hba => absurd (Nat.lt_trans hab hba) (Nat.lt_irrefl a))
    hl List.pairwise_lt_range

/-- The slots of the used bytes, in their order, are the first ones. -/
theorem Rising.slots_eq_range (h : Rising n idx) (hsound : IndexSound n idx ch) :
    ((usedBytes idx).map fun b => (idx b).toNat) = List.range n := by
  apply eq_range_of_pairwise
  · rw [List.pairwise_map]
    refine (usedBytes_pairwise idx).imp_of_mem fun {b b'} hb hb' hlt => ?_
    exact h.mono b b' (mem_usedBytes.mp hb) (mem_usedBytes.mp hb') hlt
  · intro m hm
    obtain ⟨b, hb, rfl⟩ := List.mem_map.mp hm
    exact h.lt b (mem_usedBytes.mp hb)
  · rw [List.length_map, hsound.count]

theorem Rising.firstFree_eq (h : Rising n idx) (hsound : IndexSound n idx ch) (hn : n < 48)
    {s : Fin 48} (hfirst : (List.finRange 48).find? (fun s => (ch s).isEmpty) = some s) :
    s.val = n := by
  have hle : s.val ≤ n :=
    hsound.firstFree_le h.lt hn hfirst
  have hfree : (ch s).isEmpty = true :=
    List.find?_some (p := fun s => (ch s).isEmpty) hfirst
  by_contra hne
  have hmem : s.val ∈ (usedBytes idx).map fun b => (idx b).toNat := by
    rw [h.slots_eq_range hsound, List.mem_range]
    omega
  obtain ⟨b, -, hb⟩ := List.mem_map.mp hmem
  refine hsound.unused_of_free hfree b ?_
  rw [← hb, UInt8.ofNat_toNat]

theorem Rising.add (h : Rising n idx) (hn : n < 48) (htop : ∀ b', idx b' ≠ n48Nil → b' < b) :
    Rising (n + 1) (Function.update idx b (UInt8.ofNat n)) := by
  have hval : (UInt8.ofNat n).toNat = n := UInt8.toNat_ofNat_of_lt' (show n < 256 by omega)
  constructor
  · exact h.lt.add le_rfl hn
  · intro a a' ha ha' hlt
    by_cases hab : a = b
    · -- Nothing is above the new byte.
      by_cases hab' : a' = b
      · rw [hab, hab'] at hlt
        exact absurd hlt (UInt8.lt_irrefl b)
      · rw [Function.update_of_ne hab'] at ha'
        rw [hab] at hlt
        exact absurd (UInt8.lt_trans hlt (htop a' ha')) (UInt8.lt_irrefl b)
    · rw [Function.update_of_ne hab] at ha ⊢
      by_cases hab' : a' = b
      · rw [hab', Function.update_self, hval]
        exact h.lt a ha
      · rw [Function.update_of_ne hab'] at ha' ⊢
        exact h.mono a a' ha ha' hlt

theorem Rising.del (h : Rising n idx) (hsound : IndexSound n idx ch)
    (hlast : (idx b).toNat + 1 = n) : Rising (n - 1) (Function.update idx b n48Nil) := by
  constructor
  · exact h.lt.del hsound hlast
  · intro a a' ha ha' hlt
    have hab : a ≠ b := fun heq => ha (by rw [heq, Function.update_self])
    have hab' : a' ≠ b := fun heq => ha' (by rw [heq, Function.update_self])
    rw [Function.update_of_ne hab] at ha ⊢
    rw [Function.update_of_ne hab'] at ha' ⊢
    exact h.mono a a' ha ha' hlt

theorem rising_slotOfKey {keys : Fin 16 → UInt8} (hasc : Ascending 16 keys) :
    Rising 16 (slotOfKey 16 keys) := by
  have hslot : ∀ b, slotOfKey 16 keys b ≠ n48Nil → ∃ i : Fin 16, keys i = b ∧
      (slotOfKey 16 keys b).toNat = i.val := by
    intro b hb
    obtain ⟨i, hi⟩ := Option.ne_none_iff_exists'.mp fun hnone => hb (slotOfKey_eq_nil.mpr hnone)
    have hlt := i.isLt
    refine ⟨i, ((findKey_eq_some hasc).mp hi).2, ?_⟩
    rw [(slotOfKey_eq_ofNat (s := i.val) (by omega)).mpr ⟨i, hi, rfl⟩,
      UInt8.toNat_ofNat_of_lt' (show i.val < 256 by omega)]
  constructor
  · exact slotsBelow_slotOfKey
  · intro b b' hb hb' hlt
    obtain ⟨i, rfl, hi⟩ := hslot b hb
    obtain ⟨j, rfl, hj⟩ := hslot b' hb'
    rw [hi, hj]
    by_contra hle
    obtain heq | hji := eq_or_lt_of_le (not_lt.mp hle)
    · rw [Fin.ext heq] at hlt
      exact UInt8.lt_irrefl _ hlt
    · exact UInt8.lt_irrefl _ (UInt8.lt_trans hlt (hasc j i hji i.isLt))

end Slots

theorem Canonical.setHasEnd (hP : node.Canonical) : (node.setHasEnd true).Canonical := by
  cases node with
  | n4 pfx he n keys ch => exact ⟨hP.1, fun _ => rfl⟩
  | _ => exact hP

theorem Canonical.setChild {c₀ : Node} (hP : node.Canonical) (hc : node.nodeChild b = some c₀)
    (hx : c.isEmpty = false) : (Node.setChild b c node).Canonical := by
  cases node with
  | empty => cases hc
  | leaf sfx => cases hc
  | n4 pfx he n keys ch =>
    simp only [Node.setChild]
    split <;> exact hP
  | n16 pfx he n keys ch =>
    simp only [Node.setChild]
    split <;> exact hP
  | n48 pfx he n idx ch =>
    simp only [Node.setChild]
    split <;> exact hP
  | n256 pfx he n ch =>
    obtain ⟨rfl, hne⟩ := nodeChild_n256_eq_some.mp hc
    show 48 < _
    rw [length_fullBytes_update (hx.trans hne.symm)]
    exact hP

/-- A child that arrives above the others takes the next slot. -/
theorem Canonical.add (hsound : node.Sound) (hP : node.Canonical) (hA : node.AddsLast b)
    (hnone : node.nodeChild b = none) (hx : c.isEmpty = false) (hshape : AddShape b c node x) :
    x.Canonical := by
  cases hshape with
  | @n4 pfx he n =>
    have hpos : 1 ≤ n := hP.1
    exact ⟨by omega, fun hone => absurd hone (by omega)⟩
  | n4Full => exact Nat.lt_succ_self 4
  | n16 => exact Nat.lt_succ_of_lt hP
  -- A full 16-way node becomes a 48-way one that holds its children in the order of their keys.
  | n16Full hasc =>
    refine ⟨Nat.lt_succ_self 16, (rising_slotOfKey hasc).add (by decide) fun b' hb' => ?_⟩
    obtain ⟨i, hi⟩ := Option.ne_none_iff_exists'.mp fun hno => hb' (slotOfKey_eq_nil.mpr hno)
    rw [← ((findKey_eq_some hasc).mp hi).2]
    exact hA rfl i
  | @n48 pfx he n idx ch s hn hfirst =>
    rw [hP.2.firstFree_eq hsound hn hfirst]
    exact ⟨Nat.lt_succ_of_lt hP.1, hP.2.add hn (hA.2 hn)⟩
  -- Growing to 256 ways loses no child here, so the new count is past 48.
  | n48Full hch' =>
    show 48 < _
    rw [← recount_grown hsound hch' hnone hx]
    exact Nat.lt_succ_self 48
  | @n256 pfx he n ch =>
    show 48 < _
    rw [length_fullBytes_add (isEmpty_of_nodeChild_n256 hnone) hx]
    exact Nat.lt_succ_of_lt hP

/-- A node that gives up its own key keeps its children. -/
theorem Canonical.unend (hP : node.Canonical) (hsettles : Settles (node.setHasEnd false) x) :
    x.Canonical := by
  cases node with
  | empty => cases hsettles; trivial
  | leaf sfx => cases hsettles; trivial
  | n4 pfx he n keys ch =>
    cases hsettles with
    | stay hsettled =>
      exact ⟨hP.1, fun hone => hsettled.2.resolve_left (not_not.mpr hone)⟩
  | n16 pfx he n keys ch =>
    have hP' : 4 < n := hP
    cases hsettles with
    | stay => exact hP
    | toN4 hn => exact absurd hP' (not_lt.mpr hn)
  | n48 pfx he n idx ch =>
    cases hsettles with
    | stay => exact hP
    | toN16 hn => exact absurd hP.1 (not_lt.mpr hn)
  | n256 pfx he n ch => cases hsettles; exact hP

/-- A child that leaves the last slot leaves no gap. -/
theorem Canonical.del {c₀ del : Node} (hsound : node.Sound) (hP : node.Canonical)
    (hD : node.DropsLast b) (hc : node.nodeChild b = some c₀) (hshape : DelShape b node del)
    (hsettles : Settles del x) : x.Canonical := by
  cases hshape with
  | @n4 pfx he n _ _ _ _ hpos =>
    cases hsettles with
    | stay hsettled =>
      refine ⟨?_, fun hone => hsettled.2.resolve_left (not_not.mpr hone)⟩
      -- The last child of a node without a key of its own leaves nothing.
      have hone : he = true → n ≠ 1 := hD
      by_contra hlow
      exact hsettled.1.elim (fun hne => hlow (Nat.one_le_iff_ne_zero.mpr hne))
        fun hend => hone hend (by omega)
  | @n16 pfx he n _ _ _ _ =>
    have hP' : 4 < n := hP
    cases hsettles with
    | stay hsettled => exact hsettled
    | toN4 hn => exact ⟨by omega, fun hone => absurd hone (by omega)⟩
  | @n48 pfx he n idx ch =>
    have hP' : 16 < n := hP.1
    cases hsettles with
    | stay hsettled =>
      have hlow : 16 < n - 1 := hsettled
      exact ⟨hlow, hP.2.del hsound (hD.resolve_left (by omega))⟩
    | toN16 hn =>
      show 4 < n - 1
      omega
  | @n256 pfx he n ch =>
    have hD' : 49 < (fullBytes ch).length := hD
    obtain ⟨rfl, hne⟩ := nodeChild_n256_eq_some.mp hc
    have hdel := length_fullBytes_del hne
    cases hsettles
    show 48 < (fullBytes (Function.update ch b empty)).length
    omega

/-- **The shape is kept** where children arrive above the others and leave from the top. -/
theorem kept_canonical : Kept Canonical AddsLast DropsLast where
  room {node b} _ _ hA := by
    cases node with
    | n48 pfx he n idx ch => exact hA.1
    | n256 pfx he n ch => exact hA
    | _ => trivial
  setPrefix {node} pfx hP := by cases node <;> exact hP
  setHasEnd hP := hP.setHasEnd
  setChild _ hP hc hx := hP.setChild hc hx
  fork {pfx he kids node} hfork hlen hpath := by
    obtain ⟨keys, ch, rfl⟩ := hfork.shape
    exact ⟨hlen, fun hone => hpath.resolve_right (by omega)⟩
  add hsound hP hA hnone hx hshape := Canonical.add hsound hP hA hnone hx hshape
  unend _ hP hsettles := hP.unend hsettles
  del hsound hP hD hc hshape _ hsettles := Canonical.del hsound hP hD hc hshape hsettles

/-- The place of a byte among the used ones. -/
def slotIn (used : List UInt8) (b : UInt8) : UInt8 :=
  if b ∈ used then UInt8.ofNat (used.idxOf b) else n48Nil

/-- The encoding of an inner node from the encodings below its bytes: the kind follows from their
    number, and slots follow the bytes. -/
def serInner (pfx : Bytes) (he : Bool) (below : UInt8 → Option (Option Bytes)) : Option Bytes :=
  let used := allBytes.filter fun b => (below b).isSome
  (serPfx pfx he).bind fun p =>
    if used.length ≤ 16 then
      (used.mapM fun b => (below b).join.map (b :: ·)).map fun kids =>
        (if used.length ≤ 4 then tagN4 else tagN16) :: p ++ UInt8.ofNat used.length :: kids.flatten
    else if used.length ≤ 48 then
      (used.mapM fun b => (below b).join).map fun kids =>
        tagN48 :: p ++ UInt8.ofNat used.length :: (allBytes.map (slotIn used) ++ kids.flatten)
    else
      (allBytes.mapM fun b => (below b).getD (some [tagEmpty])).map fun kids =>
        tagN256 :: p ++ kids.flatten

/-- The encodings below the bytes of a node. -/
def serBelow (node : Node) (b : UInt8) : Option (Option Bytes) := (node.nodeChild b).map serNode

section Kids

theorem filter_serBelow (node : Node) :
    (allBytes.filter fun b => (node.serBelow b).isSome) = node.kids.map Prod.fst := by
  unfold kids serBelow
  rw [List.map_filterMap, ← List.filterMap_eq_filter]
  congr 1
  funext b
  cases hc : node.nodeChild b <;> simp [Option.guard, hc]

theorem mapM_used {β : Type} (node : Node) (g : UInt8 → Option Bytes → Option β) :
    ((node.kids.map Prod.fst).mapM fun b => g b (node.serBelow b).join) =
      node.kids.mapM fun kid => g kid.1 kid.2.serNode := by
  rw [List.mapM_map]
  apply mapM_congr
  rintro ⟨b, c⟩ hmem
  show g b (node.serBelow b).join = g b c.serNode
  rw [serBelow, mem_kids.mp hmem]
  rfl

theorem take_finRange_eq_filter {cap : ℕ} :
    (List.finRange cap).take n = (List.finRange cap).filter (·.val < n) := by
  apply List.Pairwise.eq_of_mem_iff (r := (· < ·))
  · exact (List.pairwise_lt_finRange cap).sublist (List.take_sublist n _)
  · exact (List.pairwise_lt_finRange cap).filter _
  · intro i
    simp only [List.mem_filter, List.mem_finRange, true_and, decide_eq_true_eq]
    constructor
    · exact val_lt_of_mem_take
    · intro hi
      have hget := getElem?_map_take (f := id) hi
      rw [List.map_id] at hget
      exact List.mem_of_getElem? hget

theorem SmallSound.serChildren_kids {cap : ℕ} {keys : Fin cap → UInt8} {ch : Fin cap → Node}
    (h : SmallSound n keys ch) (hchild : ∀ b, node.nodeChild b = (findKey n keys b).map ch) :
    (serChildren n fun i => ((ch i).serNode).map (keys i :: ·)) =
      (node.kids.mapM fun kid : UInt8 × Node => kid.2.serNode.map (kid.1 :: ·)).map List.flatten := by
  rw [h.kids_eq hchild, List.mapM_map, serChildren, if_pos h.le, take_finRange_eq_filter]
  rfl

theorem SmallSound.length_kids {cap : ℕ} {keys : Fin cap → UInt8} {ch : Fin cap → Node}
    (h : SmallSound n keys ch) (hchild : ∀ b, node.nodeChild b = (findKey n keys b).map ch) :
    node.kids.length = n := by
  rw [h.kids_eq hchild, List.length_map, ← take_finRange_eq_filter, length_take_finRange h.le]

variable {idx : UInt8 → UInt8} {ch : Fin 48 → Node}

theorem Rising.slot_of_getElem? (h : Rising n idx) (hsound : IndexSound n idx ch) {i : ℕ}
    (hi : (usedBytes idx)[i]? = some b) : (idx b).toNat = i ∧ i < n := by
  have hslots := congrArg (·[i]?) (h.slots_eq_range hsound)
  have hlt : i < n := by
    rw [← hsound.count]
    exact (List.getElem?_eq_some_iff.mp hi).1
  simp only [List.getElem?_map, hi, Option.map_some, List.getElem?_range hlt,
    Option.some.injEq] at hslots
  exact ⟨hslots, hlt⟩

/-- The byte of a slot is the one at the same place among the used bytes. -/
theorem Rising.slot_iff (h : Rising n idx) (hsound : IndexSound n idx ch) {s : Fin 48} :
    idx b = UInt8.ofNat s.val ↔ s.val < n ∧ (usedBytes idx).getD s.val 0 = b := by
  constructor
  · intro hb
    have hused : b ∈ usedBytes idx := mem_usedBytes.mpr (by rw [hb]; exact ofNat_slot_ne_nil s)
    obtain ⟨i, hi⟩ := List.mem_iff_getElem?.mp hused
    obtain ⟨hval, hlt⟩ := h.slot_of_getElem? hsound hi
    rw [hb, toNat_ofNat_slot] at hval
    rw [hval, List.getD_eq_getElem?_getD, hi]
    exact ⟨hlt, rfl⟩
  · rintro ⟨hlt, hb⟩
    have hget : (usedBytes idx)[s.val]? = some b := by
      rw [← hb, List.getD_eq_getElem _ _ (by rw [hsound.count]; exact hlt)]
      exact List.getElem?_eq_getElem _
    rw [← (h.slot_of_getElem? hsound hget).1, UInt8.ofNat_toNat]

theorem Rising.slotIn_eq (h : Rising n idx) (hsound : IndexSound n idx ch) (b : UInt8) :
    slotIn (usedBytes idx) b = idx b := by
  unfold slotIn
  by_cases hb : b ∈ usedBytes idx
  · have hget : (usedBytes idx)[(usedBytes idx).idxOf b]? = some b := List.getElem?_idxOf hb
    rw [if_pos hb, ← (h.slot_of_getElem? hsound hget).1, UInt8.ofNat_toNat]
  · rw [if_neg hb]
    exact (not_not.mp (mt mem_usedBytes.mpr hb)).symm

theorem Rising.kids_eq (h : Rising n idx) (hsound : IndexSound n idx ch) :
    (n48 pfx he n idx ch).kids =
      ((List.finRange 48).take n).map fun s => ((usedBytes idx).getD s.val 0, ch s) := by
  symm
  apply eq_kids
  · rw [List.pairwise_map]
    refine ((List.pairwise_lt_finRange 48).sublist (List.take_sublist n _)).imp_of_mem
      fun {i j} hi hj hij => ?_
    have hj' : j.val < (usedBytes idx).length := by
      rw [hsound.count]
      exact val_lt_of_mem_take hj
    have hi' : i.val < (usedBytes idx).length := lt_trans hij hj'
    rw [List.getD_eq_getElem _ _ hi', List.getD_eq_getElem _ _ hj']
    exact List.pairwise_iff_getElem.mp (usedBytes_pairwise idx) _ _ hi' hj' hij
  · intro b c
    rw [nodeChild_n48_eq_some, take_finRange_eq_filter]
    simp only [h.slot_iff hsound, List.mem_map, List.mem_filter, List.mem_finRange, true_and,
      decide_eq_true_eq, Prod.mk.injEq, and_assoc]

theorem IndexSound.map_fst_kids (h : IndexSound n idx ch) :
    (n48 pfx he n idx ch).kids.map Prod.fst = usedBytes idx := by
  rw [← filter_serBelow]
  unfold usedBytes
  congr 1
  funext b
  unfold serBelow
  by_cases hb : idx b = n48Nil
  · rw [IndexSound.nodeChild_eq_none h |>.mpr hb, hb]
    rfl
  · cases hc : (n48 pfx he n idx ch).nodeChild b with
    | none => exact absurd ((IndexSound.nodeChild_eq_none h).mp hc) hb
    | some c => simp [hb]

/-- The child slots of a 48-node in the order of the bytes. -/
theorem Rising.serChildren_kids (h : Rising n idx) (hsound : IndexSound n idx ch) :
    (serChildren n fun s => (ch s).serNode) =
      ((n48 pfx he n idx ch).kids.mapM fun kid : UInt8 × Node => kid.2.serNode).map
        List.flatten := by
  rw [h.kids_eq hsound, List.mapM_map, serChildren, if_pos hsound.le]
  rfl

theorem filter_serBelow_n256 {ch : UInt8 → Node} :
    (allBytes.filter fun b => ((n256 pfx he n ch).serBelow b).isSome) = fullBytes ch := by
  unfold fullBytes serBelow
  congr 1
  funext b
  cases hfull : (ch b).isEmpty <;> simp [nodeChild, hfull]

theorem serBelow_n256 {ch : UInt8 → Node} (b : UInt8) :
    ((n256 pfx he n ch).serBelow b).getD (some [tagEmpty]) = (ch b).serNode := by
  unfold serBelow
  cases hfull : (ch b).isEmpty with
  | true =>
    rw [isEmpty_eq_true.mp hfull]
    simp [nodeChild, hfull, serNode]
  | false => simp [nodeChild, hfull]

theorem serInner_small {cap : ℕ} {tag : UInt8}
    (hcap : tag = tagN4 ∧ cap = 4 ∧ n ≤ 4 ∨ tag = tagN16 ∧ cap = 16 ∧ 4 < n)
    {keys : Fin cap → UInt8} {ch : Fin cap → Node} (h : SmallSound n keys ch)
    (hchild : ∀ b, node.nodeChild b = (findKey n keys b).map ch) :
    serInner pfx he node.serBelow = (serPfx pfx he).bind fun p =>
      (serChildren n fun i => ((ch i).serNode).map (keys i :: ·)).map fun below =>
        tag :: p ++ UInt8.ofNat n :: below := by
  have hlen := h.length_kids hchild
  have hle := h.le
  have htag : (if n ≤ 4 then tagN4 else tagN16) = tag := by
    obtain ⟨rfl, -, hn⟩ | ⟨rfl, -, hn⟩ := hcap
    · exact if_pos hn
    · exact if_neg (not_le.mpr hn)
  have hsmall : n ≤ 16 := by
    obtain ⟨-, rfl, -⟩ | ⟨-, rfl, -⟩ := hcap <;> omega
  unfold serInner
  dsimp only
  rw [filter_serBelow, List.length_map, hlen]
  refine congrArg (Option.bind (serPfx pfx he)) (funext fun p => ?_)
  rw [if_pos hsmall, htag, mapM_used node fun b ser => ser.map (b :: ·), h.serChildren_kids hchild,
    Option.map_map]
  rfl

end Kids

/-- **The encoding** of a canonical node, from what lies below its bytes. -/
theorem Canonical.serNode_eq (h : node.Canonical) (hsound : node.Sound)
    (hin : node.isInner = true) :
    node.serNode = serInner node.nodePrefix node.nodeHasEnd node.serBelow := by
  cases node with
  | empty => cases hin
  | leaf sfx => cases hin
  | n4 pfx he n keys ch =>
    exact (serInner_small (.inl ⟨rfl, rfl, SmallSound.le hsound⟩) hsound fun _ => rfl).symm
  | n16 pfx he n keys ch =>
    exact (serInner_small (.inr ⟨rfl, rfl, h⟩) hsound fun _ => rfl).symm
  -- Slots rise with their keys, so the order of the slots is that of the keys.
  | n48 pfx he n idx ch =>
    obtain ⟨hlow, hrising⟩ := h
    have hle := IndexSound.le hsound
    have hcount := IndexSound.count hsound
    have hused := mapM_used (n48 pfx he n idx ch) fun _ ser => ser
    unfold serInner
    dsimp only
    rw [filter_serBelow]
    rw [IndexSound.map_fst_kids hsound] at hused ⊢
    rw [hcount, serNode]
    refine congrArg (Option.bind (serPfx pfx he)) (funext fun p => ?_)
    rw [if_neg (not_le.mpr hlow), if_pos hle, hused, funext (hrising.slotIn_eq hsound),
      hrising.serChildren_kids hsound, Option.map_map]
    rfl
  | n256 pfx he n ch =>
    have hmany : 48 < (fullBytes ch).length := h
    unfold serInner
    dsimp only
    rw [filter_serBelow_n256, serNode]
    refine congrArg (Option.bind (serPfx pfx he)) (funext fun p => ?_)
    rw [if_neg (by omega), if_neg (by omega)]
    simp only [serBelow_n256]

section Keys

/-- A canonical node has a child, and another one unless it has a key of its own. -/
theorem Canonical.length_kids (h : node.Canonical) (hsound : node.Sound)
    (hin : node.isInner = true) :
    1 ≤ node.kids.length ∧ (node.kids.length = 1 → node.nodeHasEnd = true) := by
  cases node with
  | empty => cases hin
  | leaf sfx => cases hin
  | n4 pfx he n keys ch =>
    rw [SmallSound.length_kids hsound fun _ => rfl]
    exact h
  | n16 pfx he n keys ch =>
    have hmany : 4 < n := h
    rw [SmallSound.length_kids hsound fun _ => rfl]
    exact ⟨by omega, fun hone => absurd hone (by omega)⟩
  | n48 pfx he n idx ch =>
    have hmany : 16 < n := h.1
    rw [← List.length_map (f := Prod.fst), IndexSound.map_fst_kids hsound, IndexSound.count hsound]
    exact ⟨by omega, fun hone => absurd hone (by omega)⟩
  | n256 pfx he n ch =>
    have hmany : 48 < (fullBytes ch).length := h
    rw [← List.length_map (f := Prod.fst), ← filter_serBelow, filter_serBelow_n256]
    exact ⟨by omega, fun hone => absurd hone (by omega)⟩

theorem Canonical.exists_child (h : node.Canonical) (hsound : node.Sound)
    (hin : node.isInner = true) : ∃ b c, node.nodeChild b = some c := by
  obtain ⟨⟨b, c⟩, hkid⟩ := List.exists_mem_of_length_pos (h.length_kids hsound hin).1
  exact ⟨b, c, mem_kids.mp hkid⟩

/-- The ways out of a canonical node: its own key and a child, or two children. -/
theorem Canonical.diverges (h : node.Canonical) (hsound : node.Sound) (hin : node.isInner = true) :
    node.nodeHasEnd = true ∨ ∃ b b' c c', b ≠ b' ∧ node.nodeChild b = some c ∧
      node.nodeChild b' = some c' := by
  obtain ⟨hpos, hone⟩ := h.length_kids hsound hin
  have hpair := node.kids_pairwise
  have hmem : ∀ kid ∈ node.kids, node.nodeChild kid.1 = some kid.2 := fun kid => mem_kids.mp
  generalize node.kids = kids at hpos hone hpair hmem
  match kids with
  | [] => cases hpos
  | [kid] => exact .inl (hone rfl)
  | kid :: kid' :: _ =>
    have hlt := (List.pairwise_cons.mp hpair).1 kid' List.mem_cons_self
    exact .inr ⟨kid.1, kid'.1, kid.2, kid'.2, UInt8.ne_of_lt hlt, hmem kid List.mem_cons_self,
      hmem kid' (List.mem_cons_of_mem _ List.mem_cons_self)⟩

theorem nodePrefix_prefix {k : Bytes} (hin : node.isInner = true) (h : Holds node k) :
    node.nodePrefix <+: k := by
  obtain ⟨-, rfl⟩ | ⟨b, rest, c, rfl, -⟩ := (holds_inner hin).mp h
  · exact List.prefix_rfl
  · exact List.prefix_append _ _

/-- What two keys that part behind `p` have in common is in `p`. -/
theorem prefix_of_diverge {p q r r' : Bytes} {b b' : UInt8} (hne : b ≠ b')
    (h : q <+: p ++ b :: r) (h' : q <+: p ++ b' :: r') : q <+: p := by
  obtain hq | ⟨s, rfl⟩ := List.prefix_or_prefix_of_prefix h (List.prefix_append p _)
  · exact hq
  · rw [List.prefix_append_right_inj] at h h'
    cases s with
    | nil => rw [List.append_nil]
    | cons x s =>
      rw [List.cons_prefix_cons] at h h'
      exact absurd (h.1.symm.trans h'.1) hne

/-- The trees whose encoding the keys determine. -/
def CanonicalTree (node : Node) : Prop := Each (fun t => t.Sound ∧ t.Canonical) node

theorem CanonicalTree.exists_holds (h : CanonicalTree node) : ∃ k, Holds node k :=
  Each.exists_holds (fun _ hQ hin => hQ.2.exists_child hQ.1 hin) h

theorem CanonicalTree.child (h : CanonicalTree node) (hc : node.nodeChild b = some c) :
    CanonicalTree c :=
  ((Each.inner_iff (isInner_of_nodeChild hc)).mp h).2 b c hc

/-- **The prefix** of an inner node is the longest that its keys have in common. -/
theorem CanonicalTree.prefix_of_common (h : CanonicalTree node) (hin : node.isInner = true)
    {q : Bytes} (hq : ∀ k, Holds node k → q <+: k) : q <+: node.nodePrefix := by
  obtain ⟨hsound, hcanon⟩ := ((Each.inner_iff hin).mp h).1
  obtain hend | ⟨b, b', c, c', hne, hc, hc'⟩ := hcanon.diverges hsound hin
  · exact hq _ ((holds_here hin).mpr hend)
  · obtain ⟨r, hr⟩ := (h.child hc).exists_holds
    obtain ⟨r', hr'⟩ := (h.child hc').exists_holds
    exact prefix_of_diverge hne (hq _ ((holds_branch hin).mpr ⟨c, hc, hr⟩))
      (hq _ ((holds_branch hin).mpr ⟨c', hc', hr'⟩))

/-- An inner node has more keys than a leaf. -/
theorem CanonicalTree.exists_ne (h : CanonicalTree node) (hin : node.isInner = true) (k : Bytes) :
    ∃ k', k' ≠ k ∧ Holds node k' := by
  obtain ⟨hsound, hcanon⟩ := ((Each.inner_iff hin).mp h).1
  obtain ⟨b, c, hc⟩ := hcanon.exists_child hsound hin
  obtain ⟨r, hr⟩ := (h.child hc).exists_holds
  have hlong := (holds_branch hin).mpr ⟨c, hc, hr⟩
  by_cases hk : node.nodePrefix ++ b :: r = k
  · obtain hend | ⟨b₁, b₂, c₁, c₂, hne, hc₁, hc₂⟩ := hcanon.diverges hsound hin
    · refine ⟨node.nodePrefix, fun heq => ?_, (holds_here hin).mpr hend⟩
      rw [← hk] at heq
      simp at heq
    · -- One of the two children is not the one that `k` goes through.
      by_cases hb : b₁ = b
      · obtain ⟨r₂, hr₂⟩ := (h.child hc₂).exists_holds
        refine ⟨_, fun heq => ?_, (holds_branch hin).mpr ⟨c₂, hc₂, hr₂⟩⟩
        exact hne (hb.trans (branch_inj (hk.trans heq.symm)).1)
      · obtain ⟨r₁, hr₁⟩ := (h.child hc₁).exists_holds
        refine ⟨_, fun heq => ?_, (holds_branch hin).mpr ⟨c₁, hc₁, hr₁⟩⟩
        exact hb (branch_inj (heq.trans hk.symm)).1
  · exact ⟨_, hk, hlong⟩

theorem CanonicalTree.nodePrefix_eq (hx : CanonicalTree x) (hy : CanonicalTree y)
    (hinx : x.isInner = true) (hiny : y.isInner = true) (h : ∀ k, Holds x k ↔ Holds y k) :
    x.nodePrefix = y.nodePrefix := by
  have hxy : x.nodePrefix <+: y.nodePrefix :=
    hy.prefix_of_common hiny fun k hk => nodePrefix_prefix hinx ((h k).mpr hk)
  have hyx : y.nodePrefix <+: x.nodePrefix :=
    hx.prefix_of_common hinx fun k hk => nodePrefix_prefix hiny ((h k).mp hk)
  exact hxy.eq_of_length_le hyx.length_le

/-- **Uniqueness**: canonical trees with the same keys are written alike. -/
theorem serNode_eq_of_holds (hx : CanonicalTree x) (hy : CanonicalTree y)
    (h : ∀ k, Holds x k ↔ Holds y k) : x.serNode = y.serNode := by
  -- By induction on the first tree: the strings below decide which kind of node stands here, its
  -- prefix, its end mark and, byte by byte, its children.
  induction hx generalizing y with
  | leaf sfx =>
    cases hiny : y.isInner with
    | true =>
      -- An inner node holds a second string, a leaf does not.
      obtain ⟨k, hne, hk⟩ := hy.exists_ne hiny sfx
      exact absurd (holds_leaf.mp ((h k).mpr hk)) hne
    | false =>
      cases hy with
      | leaf sfx' => rw [holds_leaf.mp ((h sfx).mp (.leaf sfx))]
      | inner hin => rw [hiny] at hin; cases hin
  | @inner x hinx hQx hchild ih =>
    have hx : CanonicalTree x := .inner hinx hQx hchild
    cases hiny : y.isInner with
    | false =>
      cases hy with
      | leaf sfx =>
        obtain ⟨k, hne, hk⟩ := hx.exists_ne hinx sfx
        exact absurd (holds_leaf.mp ((h k).mp hk)) hne
      | inner hin => rw [hiny] at hin; cases hin
    | true =>
      obtain ⟨hQy, -⟩ := (Each.inner_iff hiny).mp hy
      have hpfx := hx.nodePrefix_eq hy hinx hiny h
      have hend : x.nodeHasEnd = y.nodeHasEnd := by
        rw [Bool.eq_iff_iff, ← holds_here hinx, ← holds_here hiny, ← hpfx]
        exact h x.nodePrefix
      have hbranch : ∀ b r, (∃ c, x.nodeChild b = some c ∧ Holds c r) ↔
          ∃ c, y.nodeChild b = some c ∧ Holds c r := by
        intro b r
        rw [← holds_branch hinx, ← holds_branch hiny, ← hpfx]
        exact h _
      have hbelow : x.serBelow = y.serBelow := by
        funext b
        unfold serBelow
        -- A child holds a string, so that the two nodes have children under the same bytes.
        cases hcx : x.nodeChild b with
        | none =>
          cases hcy : y.nodeChild b with
          | none => rfl
          | some c' =>
            obtain ⟨r, hr⟩ := (hy.child hcy).exists_holds
            obtain ⟨c, hc, -⟩ := (hbranch b r).mpr ⟨c', hcy, hr⟩
            rw [hcx] at hc
            cases hc
        | some c =>
          cases hcy : y.nodeChild b with
          | none =>
            obtain ⟨r, hr⟩ := (hx.child hcx).exists_holds
            obtain ⟨c', hc', -⟩ := (hbranch b r).mp ⟨c, hcx, hr⟩
            rw [hcy] at hc'
            cases hc'
          | some c' =>
            refine congrArg some (ih b c hcx (hy.child hcy) fun r => ?_)
            have hiff := hbranch b r
            simp only [hcx, hcy, Option.some.injEq, exists_eq_left'] at hiff
            exact hiff
      rw [hQx.2.serNode_eq hQx.1 hinx, hQy.2.serNode_eq hQy.1 hiny, hpfx, hend, hbelow]

end Keys

end Node

namespace Node

theorem Sound.countFits {node : Node} (h : node.Sound) : node.CountFits := by
  cases node with
  | n4 pfx he n keys ch => exact SmallSound.le h
  | n16 pfx he n keys ch => exact SmallSound.le h
  | n48 pfx he n idx ch => exact IndexSound.le h
  | _ => trivial

/-- A sound tree whose prefixes fit their length field is written. -/
theorem Each.isSome_serNode {node : Node} {d L : ℕ} (h : Each Sound node)
    (hreach : Reaches L d node) (hL : L ≤ 255) : node.serNode.isSome = true := by
  refine Node.isSome_serNode (fun e sub hsub => ?_) hreach hL
  obtain rfl | hsub := Each.within (fun _ hQ => hQ) (.inr h) hsub
  · trivial
  · cases hsub with
    | leaf sfx => trivial
    | inner hin hQ hchild => exact hQ.countFits

end Node

namespace IndexTree

variable {t u : IndexTree} {s : Finset Bytes}

/-- The keys that the tree enumerates. -/
def keySet (t : IndexTree) : Option (Finset Bytes) := t.keys.map List.toFinset

/-- Trees with the same keys have the same bytes. -/
def EncodeAlike (t u : IndexTree) : Prop :=
  t.keySet = u.keySet → ∃ bytes, t.toBytes = some bytes ∧ u.toBytes = some bytes

theorem Keeps.keySet {P : Node → Prop} (h : Keeps P t s) : t.keySet = some s := by
  obtain ⟨l, hl, -, hmem⟩ := h.keys
  rw [IndexTree.keySet, hl, Option.map_some, Option.some.injEq]
  ext k
  rw [List.mem_toFinset, hmem]

theorem Keeps.isSome_toBytes {P : Node → Prop} (h : Keeps P t s) (hreach : t.root.Reaches 255 0) :
    t.toBytes.isSome = true := by
  rw [toBytes, Option.isSome_map]
  obtain hnil | hsound := h.sound
  · rw [hnil]
    rfl
  · exact hsound.isSome_serNode hreach le_rfl

/-- Canonical trees that hold the same set have the same bytes. -/
theorem Keeps.toBytes_eq (h : Keeps Node.Canonical t s) (h' : Keeps Node.Canonical u s) :
    t.toBytes = u.toBytes := by
  have hholds : ∀ k, t.root.Holds k ↔ u.root.Holds k := fun k => (h.holds k).trans (h'.holds k).symm
  have hser : t.root.serNode = u.root.serNode := by
    obtain hnil | hroot := h.root
    · obtain hnil' | hroot' := h'.root
      · rw [hnil, hnil']
      · obtain ⟨k, hk⟩ := Node.CanonicalTree.exists_holds hroot'
        rw [← hholds, hnil] at hk
        exact absurd hk Node.not_holds_empty
    · obtain hnil' | hroot' := h'.root
      · obtain ⟨k, hk⟩ := Node.CanonicalTree.exists_holds hroot
        rw [hholds, hnil'] at hk
        exact absurd hk Node.not_holds_empty
      · exact Node.serNode_eq_of_holds hroot hroot' hholds
  unfold toBytes
  rw [hser, h.len, h'.len]

end IndexTree

/-- A call that leaves the shape that the keys determine: children come into 48-nodes above the
    others and leave their last slot, and no counter goes wrong. -/
def SetOp.KeepsShape : IndexTree → SetOp → Prop := SetOp.Allowed Node.AddsLast Node.DropsLast

/-- **Canonical encoding**: two runs of such calls that leave the same keys leave the same bytes,
    where the keys that one of them inserts have at most 255 bytes. -/
theorem encodeAlike_run {ops ops' : List SetOp}
    (hkeys : ∀ key, .insert key ∈ ops → key.length ≤ 255)
    (hrun : RunsWithin SetOp.KeepsShape ops) (hrun' : RunsWithin SetOp.KeepsShape ops') :
    ∃ t answers t' answers', treeRun ops = some (t, answers) ∧
      treeRun ops' = some (t', answers') ∧ t.EncodeAlike t' := by
  obtain ⟨t, ht, hkeeps⟩ := IndexTree.keeps_run Node.kept_canonical hrun
  obtain ⟨t', ht', hkeeps'⟩ := IndexTree.keeps_run Node.kept_canonical hrun'
  refine ⟨t, _, t', _, ht, ht', fun hsame => ?_⟩
  rw [hkeeps.keySet, hkeeps'.keySet, Option.some.injEq] at hsame
  rw [← hsame] at hkeeps'
  have hbytes := hkeeps.isSome_toBytes (IndexTree.reaches_run ht hkeys)
  obtain ⟨bytes, hto⟩ := Option.isSome_iff_exists.mp hbytes
  exact ⟨bytes, hto, by rw [← hkeeps.toBytes_eq hkeeps', hto]⟩

theorem encodeAlike_splitOps : ∃ t answers t' answers', treeRun splitOps = some (t, answers) ∧
    treeRun [.insert [1, 3]] = some (t', answers') ∧ t.EncodeAlike t' := by
  refine encodeAlike_run (fun key hkey => ?_) (runsWithin_splitOps ?_ ?_ fun r hr => ?_)
    fun before op after heq r hr => ?_
  · simp only [splitOps, List.mem_cons, SetOp.insert.injEq, reduceCtorEq, List.not_mem_nil,
      or_false] at hkey
    obtain rfl | rfl := hkey <;> decide
  · exact Node.addsWithin_of_not_inner rfl
  · exact Node.addsWithin_of_not_inner rfl
  · exact dropsWithin_splitCheck (fun _ _ _ _ _ hend => absurd hend Bool.false_ne_true)
      (splitCheck_of_treeRun hr)
  · cases before with
    | nil =>
      obtain ⟨rfl, -⟩ := List.cons.inj heq
      obtain rfl := Option.some.inj hr
      exact Node.addsWithin_of_not_inner rfl
    | cons op' before => simp at heq

/-- Seventeen keys in ascending order. -/
def risingOps : List SetOp := (List.range 17).map fun i => .insert [UInt8.ofNat i]

/-- The same keys, the greatest of them first. -/
def greatestFirstOps : List SetOp :=
  .insert [16] :: (List.range 16).map fun i => .insert [UInt8.ofNat i]

/-- The 48-node has its slots in the order of the insertions. -/
theorem not_encodeAlike_risingOps : (∀ key, .insert key ∈ risingOps → key.length ≤ 255) ∧
    (∀ key, .insert key ∈ greatestFirstOps → key.length ≤ 255) ∧
    ∃ t answers t' answers', treeRun risingOps = some (t, answers) ∧
      treeRun greatestFirstOps = some (t', answers') ∧ ¬t.EncodeAlike t' := by
  refine ⟨?_, ?_, ?_⟩
  · intro key hkey
    obtain ⟨i, -, heq⟩ := List.mem_map.mp hkey
    obtain rfl := SetOp.insert.inj heq
    exact Nat.le_of_lt_succ (by simp)
  · intro key hkey
    obtain heq | hkey := List.mem_cons.mp hkey
    · obtain rfl := SetOp.insert.inj heq
      decide
    · obtain ⟨i, -, heq⟩ := List.mem_map.mp hkey
      obtain rfl := SetOp.insert.inj heq
      exact Nat.le_of_lt_succ (by simp)
  · have hkeys : (treeRun risingOps).bind (fun r => r.1.keys) =
        (treeRun greatestFirstOps).bind fun r => r.1.keys := by
      decide +kernel
    have hbytes : ((treeRun risingOps).bind (fun r => r.1.toBytes) ==
        (treeRun greatestFirstOps).bind fun r => r.1.toBytes) = false := by
      decide +kernel
    have hsome : ((treeRun risingOps).isSome && (treeRun greatestFirstOps).isSome) = true := by
      decide +kernel
    rw [Bool.and_eq_true, Option.isSome_iff_exists, Option.isSome_iff_exists] at hsome
    obtain ⟨⟨r, hr⟩, r', hr'⟩ := hsome
    rw [hr, hr', Option.bind_some, Option.bind_some] at hkeys hbytes
    refine ⟨r.1, r.2, r'.1, r'.2, hr, hr', fun halike => ?_⟩
    obtain ⟨bytes, hto, hto'⟩ := halike (congrArg (Option.map List.toFinset) hkeys)
    rw [hto, hto', beq_self_eq_true] at hbytes
    cases hbytes

end Arkiv
